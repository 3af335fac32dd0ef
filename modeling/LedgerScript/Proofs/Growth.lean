import LedgerScript.Language.Transaction
import LedgerScript.Ledger.Local
import LedgerScript.Proofs.Selection
import LedgerScript.Proofs.StandardOperations
import LedgerScript.Proofs.Worlds

/-!
# Worlds that only grow

No update of a world takes a name, a path or an entry of the trace away, and none moves one. So
where operations make their worlds by updates of the one that they see, every line of a run leaves
all that it found in its place, and what is new comes after it. A failed line adds nothing, and a
value line just the entry that shows its value.
-/

set_option autoImplicit false

namespace LedgerScript

variable {σ : Type}

namespace Roster

variable {α β : Type} [DecidableEq α]

theorem keys_prefix_insert (r : Roster α β) (key : α) (value : β) :
    r.keys <+: (r.insert key value).keys := by
  rw [keys_insert]
  split
  · exact List.prefix_refl _
  · exact List.prefix_append _ _

theorem keys_prefix_insertAll (r : Roster α β) (keys : List α) (value : β) :
    r.keys <+: (r.insertAll keys value).keys := by
  induction keys generalizing r with
  | nil => exact List.prefix_refl _
  | cons key rest ih => exact (r.keys_prefix_insert key value).trans (ih (r.insert key value))

end Roster

namespace World

/-- All that was in the first world is in place in the second, with what is new behind it. -/
structure Grown (w v : World) : Prop where
  accounts : w.accounts.keys <+: v.accounts.keys
  registry : w.registry.keys <+: v.registry.keys
  trace : w.trace <+: v.trace

namespace Grown

variable {w v x : World}

theorem refl (w : World) : w.Grown w :=
  ⟨List.prefix_refl _, List.prefix_refl _, List.prefix_refl _⟩

theorem trans (h : w.Grown v) (k : v.Grown x) : w.Grown x :=
  ⟨h.accounts.trans k.accounts, h.registry.trans k.registry, h.trace.trans k.trace⟩

theorem of_same (accounts : v.accounts = w.accounts) (registry : v.registry = w.registry)
    (trace : v.trace = w.trace) : w.Grown v := by
  constructor
  · rw [accounts]
  · rw [registry]
  · rw [trace]

theorem withAccount (w : World) (name address : String) : w.Grown (w.withAccount name address) :=
  ⟨w.accounts.keys_prefix_insert name address, List.prefix_refl _, List.prefix_refl _⟩

theorem register (w : World) (paths : List Path) (entry : RegistryEntry) :
    w.Grown (w.register paths entry) :=
  ⟨List.prefix_refl _, w.registry.keys_prefix_insertAll paths entry, List.prefix_refl _⟩

theorem traced (w : World) (message : String) (invocation : Option Invocation) :
    w.Grown (w.traced message invocation) :=
  ⟨List.prefix_refl _, List.prefix_refl _, List.prefix_append _ _⟩

theorem withTxOptions (w : World) (options : TxOptions) : w.Grown (w.withTxOptions options) :=
  .of_same rfl rfl rfl

theorem leave {outer inner after : World} (h : inner.Grown after)
    (same : outer.Grown inner) : outer.Grown (outer.leave inner after) :=
  (same.trans h).trans (.of_same rfl rfl rfl)

end Grown

end World

namespace Transaction

variable [Ledger σ] {w v : World} {s t : σ}

theorem traced_of_deploy {kind : String} {args : List Value} {handle : Handle}
    (h : deploy w kind args s = (.ok (v, handle), t)) : ∃ message, v = w.traced message none := by
  obtain ⟨options, u, -, hdeploy⟩ := LedgerM.bind_eq_ok.mp h
  obtain ⟨deployed, u', -, hpure⟩ := LedgerM.bind_eq_ok.mp hdeploy
  cases hpure
  exact ⟨_, rfl⟩

theorem traced_of_accepted {message method : String} {i : Invocation}
    (h : accepted w message method i = .ok v) : v = w.traced message (some i) := by
  rw [accepted] at h
  split at h <;> cases h
  rfl

theorem traced_of_send {handle : Handle} {method : String} {args : List Value}
    (h : send w handle method args s = (.ok v, t)) :
    ∃ message invocation, v = w.traced message invocation := by
  obtain ⟨options, u, -, hsend⟩ := LedgerM.bind_eq_ok.mp h
  split at hsend
  · cases hsend
    exact ⟨_, _, rfl⟩
  · obtain ⟨invocation, u', -, haccepted⟩ := LedgerM.bind_eq_ok.mp hsend
    exact ⟨_, _, traced_of_accepted (LedgerM.lift_eq_ok.mp haccepted).1⟩

end Transaction

/-- The second world comes out of the first by updates, those of transactions among them. -/
inductive World.Built (σ : Type) [Ledger σ] (w : World) : World → Prop
  | same : Built σ w w
  | account {v : World} (name address : String) (built : Built σ w v) :
      Built σ w (v.withAccount name address)
  | registered {v : World} (paths : List Path) (entry : RegistryEntry) (built : Built σ w v) :
      Built σ w (v.register paths entry)
  | settings {v : World} (settings : Settings) (built : Built σ w v) :
      Built σ w (v.withSettings settings)
  | traced {v : World} (message : String) (invocation : Option Invocation)
      (built : Built σ w v) : Built σ w (v.traced message invocation)
  | options {v : World} (options : TxOptions) (built : Built σ w v) :
      Built σ w (v.withTxOptions options)
  | deployed {v x : World} {kind : String} {args : List Value} {handle : Handle} {s t : σ}
      (deployed : Transaction.deploy v kind args s = (.ok (x, handle), t)) (built : Built σ w v) :
      Built σ w x
  | sent {v x : World} {handle : Handle} {method : String} {args : List Value} {s t : σ}
      (sent : Transaction.send v handle method args s = (.ok x, t)) (built : Built σ w v) :
      Built σ w x

theorem World.Built.grown [Ledger σ] {w v : World} (h : Built σ w v) : w.Grown v := by
  induction h with
  | same => exact .refl w
  | account name address _ ih => exact ih.trans (.withAccount _ name address)
  | registered paths entry _ ih => exact ih.trans (.register _ paths entry)
  | settings settings _ ih => exact ih.trans (.of_same rfl rfl rfl)
  | traced message invocation _ ih => exact ih.trans (.traced _ message invocation)
  | options options _ ih => exact ih.trans (.withTxOptions _ options)
  | deployed deployed _ ih =>
    obtain ⟨message, rfl⟩ := Transaction.traced_of_deploy deployed
    exact ih.trans (.traced _ message none)
  | sent sent _ ih =>
    obtain ⟨message, invocation, rfl⟩ := Transaction.traced_of_send sent
    exact ih.trans (.traced _ message invocation)

def Change.Builds [Ledger σ] (run : Change σ) : Prop :=
  ∀ scope b s v t, run scope b s = (.ok v, t) → World.Built σ scope.world v

/-- All operations of command families build the worlds that they return from the one they see. -/
def Vocabulary.Builds [Ledger σ] (v : Vocabulary σ) : Prop :=
  ∀ name f, v.commandFamily? name = some f → ∀ op ∈ f.operations, Change.Builds op.execute

theorem Change.Makes.builds [Ledger σ] {Q : World → World → Prop} {run : Change σ}
    (h : run.Makes Q) (hQ : ∀ w v, Q w v → World.Built σ w v) : run.Builds :=
  fun _ _ _ _ _ ran => hQ _ _ (h.apply ran)

namespace Standard

theorem builds_of_mem [Ledger σ] {f : Family σ} (h : f ∈ commandFamilies) {op : Operation σ}
    (mem : op ∈ f.operations) : Change.Builds op.execute := by
  have reading (h : op ∈ readOperations ∨ op ∈ printOperations) : Change.Builds op.execute :=
    (makes_reading h).builds (by rintro w v ⟨message, rfl⟩; exact .traced message none .same)
  simp only [commandFamilies, List.mem_cons, List.not_mem_nil, or_false] at h
  rcases h with rfl | rfl | rfl | rfl | rfl
  · exact (makes_assertion mem).builds (by rintro w v rfl; exact .same)
  · exact reading (.inl mem)
  · exact reading (.inr mem)
  · exact (makes_alias mem).builds
      (by rintro w v ⟨path, entry, rfl⟩; exact .registered [path] entry .same)
  · exact (makes_setting mem).builds (by rintro w v ⟨settings, rfl⟩; exact .settings settings .same)

theorem builds_vocabulary [Ledger σ] : (vocabulary : Vocabulary σ).Builds :=
  fun _ _ named _ mem => builds_of_mem (mem_commandFamilies named) mem

end Standard

theorem Operation.execute_of_fetcher {op : Operation σ} (kind : op.kind = .fetcher)
    (scope : Scope σ) (b : Arguments) (s : σ) : ∃ f, op.execute scope b s = (.error f, s) := by
  rw [Operation.kind] at kind
  rw [Operation.execute]
  split at kind
  · next run handler =>
    rw [handler]
    exact ⟨_, rfl⟩
  · cases kind
  · cases kind

namespace Runner

section Lines

variable {i : Runner σ} {last : Option Failure} {w v : World} {e : Event} {s t : σ} {o : Outcome}

theorem Leads.grown [Ledger σ] (builds : i.vocabulary.Builds) (h : i.Leads last w e s v) :
    w.Grown v := by
  induction h with
  | failed w e s => exact .refl w
  | traced w e s message => exact .traced w message none
  | @changed w v e name rest family op b s t u line named selected executed =>
    have mem := Family.mem_operations_of_select selected
    exact (builds name family named op mem _ _ _ _ _ executed).grown
  | sender line operand inside ih => exact ih.leave (.withTxOptions _ _)
  | value line operand inside ih => exact ih.leave (.withTxOptions _ _)

theorem world_of_failed {f : Failure} (h : i.route w last e s = (.ok o, t))
    (hf : o.failure = some f) : o.world = w := by
  have hroute := h.symm.trans (route_of_handlerFails (handlerFails_of_route e h hf))
  injection hroute with hresult
  rw [(recovered_eq_ok hresult.symm).1]

theorem fetched_of_runValueLine {scope : Scope σ} {name : String} {rest : List Event}
    {unmatched : Option NoMatch} (h : i.runValueLine scope e name rest unmatched s = (.ok o, t))
    (success : o.failure = none) :
    ∃ value, o.value = some value ∧
      o.world = scope.world.traced (e.line ++ " => " ++ value.display) none := by
  cases named : i.vocabulary.valueFamily? name with
  | none =>
    rw [runValueLine_unnamed named] at h
    cases h
  | some f =>
    rw [runValueLine_named named] at h
    obtain ⟨⟨op, b⟩, u, -, hfetch⟩ := LedgerM.bind_eq_ok.mp h
    obtain ⟨value, -, rfl⟩ := ok_of_recovering hfetch success
    exact ⟨value, rfl, rfl⟩

theorem fetched_of_runPlain {scope : Scope σ} {name : String} {rest : List Event}
    (h : i.runPlain scope e name rest s = (.ok o, t)) (kind : o.kind = .fetcher)
    (success : o.failure = none) :
    ∃ value, o.value = some value ∧
      o.world = scope.world.traced (e.line ++ " => " ++ value.display) none := by
  cases named : i.vocabulary.commandFamily? name with
  | none =>
    rw [runPlain_unnamed named] at h
    exact fetched_of_runValueLine h success
  | some f =>
    rcases selected : f.select scope rest s with ⟨n | ⟨op, b⟩, u⟩
    · rw [runPlain_refused named selected] at h
      exact fetched_of_runValueLine h success
    · rw [runPlain_selected named selected, runChange_eq] at h
      split at h
      · cases h
      · obtain ⟨v, executed, rfl⟩ := ok_of_recovering h success
        obtain ⟨f, failed⟩ := Operation.execute_of_fetcher kind scope b u
        rw [failed] at executed
        cases executed

end Lines

theorem grown_of_runLines [Ledger σ] {i : Runner σ} (builds : i.vocabulary.Builds)
    {lines : List ScriptLine} {s : Session} {r : Report} {c d : σ}
    (h : i.runLines s lines c = (.ok r, d)) : s.world.Grown r.world := by
  induction lines generalizing s r c with
  | nil =>
    cases h
    exact .refl s.world
  | cons l rest ih =>
    obtain ⟨o, u, q, line, hrest, rfl⟩ := runLines_cons_eq_ok.mp h
    exact ((leads_of_route l.event line).grown builds).trans (ih hrest)

/-- What a line with its report does to its world: all that was there stays in place; if the line
reports an error nothing is added, and if it is a value outside of forms only the entry that shows
the value is. -/
structure Grows (e : Event) (x : LineReport) (w v : World) : Prop where
  grown : w.Grown v
  accounts : v.accounts.keys.Nodup
  registry : v.registry.keys.Nodup
  failed : x.failure ≠ none → v = w
  fetched : ∀ name rest, Line.of e = .plain name rest → x.kind = .fetcher → x.failure = none →
    ∃ value, x.value = some value ∧
      v.trace = w.trace ++ [⟨e.unwrapped.line ++ " => " ++ value.display, none⟩] ∧
      v.accounts = w.accounts ∧ v.registry = w.registry ∧ v.settings = w.settings ∧
      v.txOptions = w.txOptions ∧ v.revision = w.revision + 1

theorem grows_of_process [Ledger σ] {i : Runner σ} (builds : i.vocabulary.Builds) {s : Session}
    {l : ScriptLine} {o : Outcome} {c d : σ} (h : i.process s l.event c = (.ok o, d)) :
    Grows l.event (l.report o) s.world o.world where
  grown := (leads_of_route l.event h).grown builds
  accounts := o.world.accounts.distinct
  registry := o.world.registry.distinct
  failed hf := by
    obtain ⟨f, hf⟩ := Option.ne_none_iff_exists'.mp hf
    exact world_of_failed h hf
  fetched name rest line kind success := by
    rw [process, route_plain line] at h
    obtain ⟨value, shown, world⟩ := fetched_of_runPlain h kind success
    refine ⟨value, shown, ?_⟩
    rw [world]
    simp [Vocabulary.scope]

/-- Where the operations build their worlds from the ones that they see, every line of a run that
comes to a report only adds to its world, and so does the run. -/
theorem run_grows_worlds [Ledger σ] {i : Runner σ} (builds : i.vocabulary.Builds) {w : World}
    {text : String} {r : Report} {c d : σ} (ran : i.runScript w text c = (.ok r, d)) :
    w.Grown r.world ∧ ∃ lines, Script.read text = .ok lines ∧
      ∀ front l back, lines = front ++ l :: back → ∃ q p x rest u v,
        i.runLines (.start w) front c = (.ok q, u) ∧
        i.runLines (.start w) (front ++ [l]) c = (.ok p, v) ∧
        p.lines = q.lines ++ [x] ∧ r.lines = p.lines ++ rest ∧
        Grows l.event x q.world p.world := by
  cases read : Script.read text with
  | error e =>
    rw [runScript_of_unread i w read] at ran
    cases ran
  | ok lines =>
    rw [runScript_of_read i w read] at ran
    refine ⟨grown_of_runLines builds ran, lines, rfl, ?_⟩
    rintro front l back rfl
    obtain ⟨q, u, p, before, after, rfl⟩ := runLines_append_eq_ok.mp ran
    obtain ⟨o, v, p, line, rest, rfl⟩ := runLines_cons_eq_ok.mp after
    refine ⟨q, ⟨o.world, q.lines ++ [l.report o]⟩, l.report o, p.lines, u, v, before, ?_, rfl, ?_,
      grows_of_process builds line⟩
    · have single : i.runLines ((Session.start w).afterRun q) [l] u =
          (.ok ⟨o.world, [l.report o]⟩, v) :=
        runLines_cons_eq_ok.mpr ⟨o, v, ⟨o.world, []⟩, line, rfl, rfl⟩
      exact runLines_append_eq_ok.mpr ⟨q, u, _, before, single, rfl⟩
    · exact (List.append_assoc q.lines [l.report o] p.lines).symm

def motto : Operation LocalLedger :=
  .fetcher "Motto" [{ name := "value", shape := .string }] Standard.passed "Gives the word back."

def loan : Operation LocalLedger :=
  .fetcher "Loan" [] (fun _ _ => throw (.unknownAlias "Vault")) "Looks for what is not there."

def savingsFamily : Family LocalLedger :=
  ⟨"Bank", [motto, loan], Family.wellFormed_of_complaint? _ rfl⟩

def savingsRunner : Runner LocalLedger := ⟨Standard.vocabulary.addValues savingsFamily, .standard⟩

def savingsScript : String := "Bank Motto thrift\nBank Loan\nFrom Geoff (Alias Home Geoff)"

def mottoLine : ScriptLine :=
  ⟨1, "Bank Motto thrift", .list [.atom "Bank", .atom "Motto", .atom "thrift"]⟩

def loanLine : ScriptLine := ⟨2, "Bank Loan", .list [.atom "Bank", .atom "Loan"]⟩

def homeLine : ScriptLine :=
  ⟨3, "From Geoff (Alias Home Geoff)",
    .list [.atom "From", .atom "Geoff", .list [.atom "Alias", .atom "Home", .atom "Geoff"]]⟩

def mottoWorld : World :=
  { worldOfGeoff with
    trace := [⟨"Bank Motto thrift => thrift", none⟩]
    revision := worldOfGeoff.revision + 1 }

def mottoOutcome : Outcome := ⟨mottoWorld, some (.string "thrift"), none, .fetcher⟩

def loanOutcome : Outcome := ⟨mottoWorld, none, some (.unknownAlias "Vault"), .fetcher⟩

theorem process_motto (l : LocalLedger) :
    savingsRunner.process (.start worldOfGeoff) mottoLine.event l = (.ok mottoOutcome, l) := by
  have line : Line.of mottoLine.event = .plain "Bank" [.atom "Motto", .atom "thrift"] := by cbv
  have selected (scope : Scope LocalLedger) :
      savingsFamily.select scope [.atom "Motto", .atom "thrift"] l =
        (.ok (motto, Fields.empty.insert "value" (.string "thrift")), l) := by cbv
  rw [process, route_plain line, runPlain_unnamed rfl, runValueLine_selected rfl (selected _)]
  cbv

theorem process_loan (l : LocalLedger) :
    savingsRunner.process (.start mottoWorld) loanLine.event l = (.ok loanOutcome, l) := by
  have line : Line.of loanLine.event = .plain "Bank" [.atom "Loan"] := by cbv
  have selected (scope : Scope LocalLedger) :
      savingsFamily.select scope [.atom "Loan"] l = (.ok (loan, .empty), l) := by cbv
  rw [process, route_plain line, runPlain_unnamed rfl, runValueLine_selected rfl (selected _)]
  rfl

def ownerWorld : World := mottoWorld.withTxOptions ⟨some "0x01", none⟩

def homeWorld : World :=
  mottoWorld.leave ownerWorld (ownerWorld.register [["Home"]] (.ofAddress "0x01"))

def homeOutcome : Outcome := ⟨homeWorld, none, none, .view⟩

theorem process_home (l : LocalLedger) :
    savingsRunner.process (.start mottoWorld) homeLine.event l = (.ok homeOutcome, l) := by
  let naming : Event := .list [.atom "Alias", .atom "Home", .atom "Geoff"]
  have line : Line.of homeLine.event = .sender (.atom "Geoff") [naming] := by cbv
  have operand : senderOf (savingsRunner.vocabulary.scope mottoWorld none) (.atom "Geoff") l =
      (.ok "0x01", l) := rfl
  have inside : savingsRunner.route ownerWorld none (.list [naming]) l =
      (.ok ⟨ownerWorld.register [["Home"]] (.ofAddress "0x01"), none, none, .view⟩, l) := by cbv
  exact (route_sender line operand).trans (LedgerM.map_ok inside _)

def savingsReport : Report :=
  ⟨homeWorld, [mottoLine.report mottoOutcome, loanLine.report loanOutcome,
    homeLine.report homeOutcome]⟩

theorem read_savings : Script.read savingsScript = .ok [mottoLine, loanLine, homeLine] := by
  decide +kernel

theorem runLines_motto (l : LocalLedger) :
    savingsRunner.runLines (.start worldOfGeoff) [mottoLine] l =
      (.ok ⟨mottoWorld, [mottoLine.report mottoOutcome]⟩, l) :=
  runLines_cons_eq_ok.mpr ⟨mottoOutcome, l, ⟨mottoWorld, []⟩, process_motto l, rfl, rfl⟩

theorem runScript_savings (l : LocalLedger) :
    savingsRunner.runScript worldOfGeoff savingsScript l = (.ok savingsReport, l) := by
  have home : savingsRunner.runLines (.start mottoWorld) [homeLine] l =
      (.ok ⟨homeWorld, [homeLine.report homeOutcome]⟩, l) :=
    runLines_cons_eq_ok.mpr ⟨homeOutcome, l, ⟨homeWorld, []⟩, process_home l, rfl, rfl⟩
  have loan := runLines_cons_eq_ok.mpr ⟨loanOutcome, l, _, process_loan l, home, rfl⟩
  rw [runScript_of_read _ _ read_savings]
  exact runLines_cons_eq_ok.mpr ⟨mottoOutcome, l, _, process_motto l, loan, rfl⟩

theorem run_grows_worlds_savings :
    let c : LocalLedger := .withAccounts 0
    savingsRunner.vocabulary.Builds ∧
    savingsRunner.runScript worldOfGeoff savingsScript c = (.ok savingsReport, c) ∧
    worldOfGeoff.Grown homeWorld ∧ homeWorld.registry.keys = [["Home"]] ∧
    (mottoWorld.trace = worldOfGeoff.trace ++ [⟨"Bank Motto thrift => thrift", none⟩] ∧
      mottoWorld.accounts = worldOfGeoff.accounts ∧ mottoWorld.settings = worldOfGeoff.settings) ∧
    ∃ p x rest v,
      savingsRunner.runLines (.start worldOfGeoff) [mottoLine, loanLine] c = (.ok p, v) ∧
      p.lines = [mottoLine.report mottoOutcome, x] ∧ savingsReport.lines = p.lines ++ rest ∧
      Grows loanLine.event x mottoWorld p.world := by
  intro c
  have builds : savingsRunner.vocabulary.Builds := fun name f named =>
    Standard.builds_vocabulary name f named
  have ran := runScript_savings c
  obtain ⟨grown, lines, read, each⟩ := run_grows_worlds builds ran
  obtain rfl := Except.ok.inj (read_savings.symm.trans read)
  refine ⟨builds, ran, grown, rfl, ?value, ?failure⟩
  case value =>
    obtain ⟨q, p, x, rest, u, v, before, after, hx, -, grows⟩ :=
      each [] mottoLine [loanLine, homeLine] rfl
    cases before
    rw [List.nil_append, runLines_motto] at after
    cases after
    cases hx
    have line : Line.of mottoLine.event = .plain "Bank" [.atom "Motto", .atom "thrift"] := by cbv
    obtain ⟨value, shown, trace, accounts, -, settings, -⟩ := grows.fetched _ _ line rfl rfl
    cases shown
    exact ⟨trace, accounts, settings⟩
  case failure =>
    obtain ⟨q, p, x, rest, u, v, before, after, hx, hrest, grows⟩ :=
      each [mottoLine] loanLine [homeLine] rfl
    rw [runLines_motto] at before
    cases before
    exact ⟨p, x, rest, v, after, hx, hrest, grows⟩

end Runner

end LedgerScript
