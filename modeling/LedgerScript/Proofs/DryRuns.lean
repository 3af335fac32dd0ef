import LedgerScript.Proofs.Footprint
import LedgerScript.Proofs.Rejection

/-!
# Dry runs

In a dry world a send is traced but not made, and a read never changes a ledger. A deployment does
not look at the setting: it is mined as in any other world. So a run that stays dry does to the
ledger in memory what the deployments do that its operations order, and nothing else.
-/

set_option autoImplicit false

namespace LedgerScript

def World.Dry (w : World) : Prop := w.settings.dryRun = true

theorem Transaction.options_of_no_sender {w : World} (unsent : w.sender? = none) :
    Transaction.options w = .error (.unknownAlias w.settings.defaultFrom) := by
  rw [Transaction.options, World.sender, unsent]
  rfl

theorem Transaction.send_of_dry {σ : Type} [Ledger σ] {w : World} {sender : String} (dry : w.Dry)
    (sent : w.sender? = some sender) (handle : Handle) (method : String) (args : List Value)
    (s : σ) :
    Transaction.send w handle method args s =
      (.ok (w.traced ("[dry run] " ++ (handle.kind ++ " " ++ method)) none), s) := by
  rw [Transaction.send, LedgerM.lift_bind_ok (Order.options_of_sender sent)]
  exact congrFun (if_pos dry) s

namespace Order

variable {w : World} {l : LocalLedger}

theorem after_read (w : World) (handle : Handle) (method : String) (args : List Value)
    (l : LocalLedger) : ((read handle method args).place w l).2 = l := by
  have h := (l.effect_read handle method (Value.toWires args)).of_read
  rw [Request.perform, LedgerM.map_apply] at h
  rw [place, LedgerM.map_apply, Transaction.read, ← map_eq_pure_bind, LedgerM.map_apply,
    LedgerM.restate_apply]
  exact h

theorem after_send_of_dry (dry : w.Dry) (handle : Handle) (method : String) (args : List Value)
    (l : LocalLedger) : ((send handle method args).place w l).2 = l := by
  rw [place, LedgerM.map_apply]
  cases sent : w.sender? with
  | none =>
    rw [Transaction.send, LedgerM.lift_bind_error (Transaction.options_of_no_sender sent)]
  | some sender => rw [Transaction.send_of_dry dry sent]

theorem after_deploy {sender : String} (sent : w.sender? = some sender) (kind : String)
    (args : List Value) (l : LocalLedger) :
    ((deploy kind args).place w l).2 =
      (l.step (.deploy kind (Value.toWires args) ⟨some sender, w.txOptions.value⟩)).after := by
  rw [place, LedgerM.map_apply, Transaction.deploy,
    LedgerM.lift_bind_ok (options_of_sender sent), ← map_eq_pure_bind, LedgerM.map_apply,
    LedgerM.restate_apply]
  exact (congrArg Prod.snd (LedgerM.map_apply Answer.deployed _ l)).symm

theorem after_deploy_of_no_sender (unsent : w.sender? = none) (kind : String)
    (args : List Value) (l : LocalLedger) : ((deploy kind args).place w l).2 = l := by
  rw [place, LedgerM.map_apply, Transaction.deploy,
    LedgerM.lift_bind_error (Transaction.options_of_no_sender unsent)]

theorem after_of_dry (dry : w.Dry) (o : Order) (l : LocalLedger) :
    (o.place w l).2 = l ∨ ∃ kind args options, o = .deploy kind args ∧
      (o.place w l).2 = (l.step (.deploy kind (Value.toWires args) options)).after := by
  cases o with
  | read handle method args => exact .inl (after_read w handle method args l)
  | send handle method args => exact .inl (after_send_of_dry dry handle method args l)
  | deploy kind args =>
    cases sent : w.sender? with
    | none => exact .inl (after_deploy_of_no_sender sent kind args l)
    | some sender => exact .inr ⟨kind, args, _, rfl, after_deploy sent kind args l⟩

end Order

namespace LocalLedger

theorem afterAll_of_not_accepted {l : LocalLedger} {requests : List Request}
    (h : ∀ s ∈ l.steps requests, s.accepted = false) : l.afterAll requests = l := by
  induction requests generalizing l with
  | nil => rfl
  | cons r rest ih =>
    have hstep : (l.step r).after = l := (l.step r).effect.unchanged (h _ List.mem_cons_self)
    have hrest := ih fun s hs => h s (List.mem_cons_of_mem _ hs)
    rw [afterAll, hrest, hstep]

theorem chain_afterAll_eq_iff (l : LocalLedger) (requests : List Request) :
    (l.afterAll requests).chain = l.chain ↔ ∀ s ∈ l.steps requests, s.accepted = false := by
  constructor
  · intro h
    have hcount : (l.afterAll requests).chain.nonce =
        l.chain.nonce + (l.steps requests).countP Step.accepted :=
      counter_afterAll (fun _ _ _ => rfl) l requests
    rw [h, Nat.left_eq_add, List.countP_eq_zero] at hcount
    intro s hs
    rw [← Bool.not_eq_true]
    exact hcount s hs
  · intro h
    rw [afterAll_of_not_accepted h]

end LocalLedger

/-- A permitted order, placed in a dry world, leads from one ledger to the other. -/
def DryStep (permitted : Order → Prop) (l m : LocalLedger) : Prop :=
  ∃ w o, World.Dry w ∧ permitted o ∧ (o.place w l).2 = m

/-- In a dry world the operations do nothing to the ledger but by placing permitted orders, each in
a world that is dry. -/
def Vocabulary.PlacesDry (permitted : Order → Prop) (v : Vocabulary LocalLedger) : Prop :=
  v.Within World.Dry (Relation.ReflTransGen (DryStep permitted))

theorem within_dryStep {α : Type} {permitted : Order → Prop} {w : World} {o : Order}
    {x : LedgerM LocalLedger Failure α} (dry : w.Dry) (allowed : permitted o)
    (h : ∀ l, (o.place w l).2 = (x l).2) :
    x.Within (Relation.ReflTransGen (DryStep permitted)) :=
  fun l => .single ⟨w, o, dry, allowed, h l⟩

/-- What a run of dry steps does is done by deployments alone. -/
theorem exists_deployments {permitted : Order → Prop} {l m : LocalLedger}
    (h : Relation.ReflTransGen (DryStep permitted) l m) :
    ∃ requests, (∀ r ∈ requests, ∃ kind args options,
        r = .deploy kind (Value.toWires args) options ∧ permitted (.deploy kind args)) ∧
      m = l.afterAll requests := by
  -- from the first step on: the later requests start on the ledger that it leaves
  induction h using Relation.ReflTransGen.head_induction_on with
  | refl => exact ⟨[], by simp, rfl⟩
  | head first _ ih =>
    obtain ⟨w, o, dry, allowed, rfl⟩ := first
    obtain ⟨requests, hrequests, hm⟩ := ih
    rcases o.after_of_dry dry _ with hsame | ⟨kind, args, options, rfl, hafter⟩
    · rw [hsame] at hm
      exact ⟨requests, hrequests, hm⟩
    · rw [hafter] at hm
      refine ⟨.deploy kind (Value.toWires args) options :: requests, ?_, hm⟩
      rw [List.forall_mem_cons]
      exact ⟨⟨kind, args, options, rfl, allowed⟩, hrequests⟩

namespace Runner

/-- Every line that the run reaches begins in a dry world. -/
def StaysDry (i : Runner LocalLedger) (w : World) (text : String) (c : LocalLedger) : Prop :=
  ∀ front l back r d, Script.read text = .ok (front ++ l :: back) →
    i.runLines (.start w) front c = (.ok r, d) → r.world.Dry

/-- A run that stays dry does to the ledger in memory what some deployments do that its operations
may order, and nothing else. The chain is as it was just if none of these was accepted; and if the
operations order no deployments, the whole ledger is. -/
theorem dry_run_performs_deployments {i : Runner LocalLedger} {permitted : Order → Prop}
    (places : i.vocabulary.PlacesDry permitted) {w : World} {text : String} {c : LocalLedger}
    (dry : i.StaysDry w text c) :
    ∃ requests, (∀ r ∈ requests, ∃ kind args options,
        r = .deploy kind (Value.toWires args) options ∧ permitted (.deploy kind args)) ∧
      (i.runScript w text c).2 = c.afterAll requests ∧
      ((i.runScript w text c).2.chain = c.chain ↔ ∀ s ∈ c.steps requests, s.accepted = false) ∧
      ((∀ kind args, ¬ permitted (.deploy kind args)) → (i.runScript w text c).2 = c) := by
  have reached : Relation.ReflTransGen (DryStep permitted) c (i.runScript w text c).2 := by
    cases read : Script.read text with
    | error e =>
      rw [runScript_of_unread i w read]
      exact .refl
    | ok lines =>
      rw [runScript_of_read i w read]
      refine within_runLines places (fun v o hv => hv) ?_
      rintro front l back r d rfl ran
      exact dry front l back r d read ran
  obtain ⟨requests, hrequests, hafter⟩ := exists_deployments reached
  refine ⟨requests, hrequests, hafter, ?_, ?_⟩
  · rw [hafter]
    exact c.chain_afterAll_eq_iff requests
  · intro none
    have hnil : requests = [] := by
      rw [List.eq_nil_iff_forall_not_mem]
      intro r hr
      obtain ⟨kind, args, -, -, allowed⟩ := hrequests r hr
      exact none kind args allowed
    rw [hafter, hnil]
    rfl

theorem staysDry_single {i : Runner LocalLedger} {w : World} {text : String} {l : ScriptLine}
    (dry : w.Dry) (read : Script.read text = .ok [l]) (c : LocalLedger) :
    i.StaysDry w text c := by
  intro front k back r d hread ran
  rw [read] at hread
  cases front with
  | nil =>
    cases ran
    exact dry
  | cons m front => simp at hread

def setCell : Operation LocalLedger :=
  .command "Set" [] (fun scope _ =>
    Transaction.send scope.world LocalLedger.firstCell "setValue" [.string "7"]) "Sets the cell."

def deployCell : Operation LocalLedger :=
  .command "Deploy" []
    (fun scope _ => Prod.fst <$> Transaction.deploy scope.world "Cell" [.string "5"])
    "Deploys a cell."

def cellFamily (op : Operation LocalLedger) (h : Params.complaint? op.params = none) :
    Family LocalLedger :=
  ⟨"Cell", [op], by simpa using h⟩

def cellRunner (op : Operation LocalLedger) (h : Params.complaint? op.params = none) :
    Runner LocalLedger :=
  ⟨Vocabulary.bare.addCommands (cellFamily op h), .standard⟩

def dryWorld : World := worldOfOwner.withSettings { worldOfOwner.settings with dryRun := true }

theorem dry_dryWorld : dryWorld.Dry := rfl

theorem sender_dryWorld : dryWorld.sender? = some "0x01" := rfl

section Cell

variable {op : Operation LocalLedger} {h : Params.complaint? op.params = none}

theorem placesDry_cellRunner {permitted : Order → Prop}
    (hop : op.Within World.Dry (Relation.ReflTransGen (DryStep permitted))) :
    (cellRunner op h).vocabulary.PlacesDry permitted := by
  refine Vocabulary.within_bare.addCommands fun q mem => ?_
  rw [List.mem_singleton.mp mem]
  exact hop

theorem process_of_selected {s : Session} {e : Event} {rest : List Event} {v : World}
    {l m : LocalLedger} (line : Line.of e = .plain "Cell" rest) (sent : s.world.sender? ≠ none)
    (selected : ∀ scope, (cellFamily op h).select scope rest l = (.ok (op, .empty), l))
    (ran : ∀ scope : Scope LocalLedger, scope.world = s.world →
      op.execute scope .empty l = (.ok v, m)) :
    (cellRunner op h).process s e l = (.ok ⟨v, none, none, op.kind⟩, m) := by
  have named : (cellRunner op h).vocabulary.commandFamily? "Cell" = some (cellFamily op h) := by
    rfl
  rw [process, route_selected line named (selected _)]
  exact runChange_of_ok (fun _ => sent) (ran _ rfl)

end Cell

def settingScript : String := "Cell Set\nFrom Geoff (Cell Set)"

def setLine : ScriptLine := ⟨1, "Cell Set", .list [.atom "Cell", .atom "Set"]⟩

def setUnderForm : ScriptLine :=
  ⟨2, "From Geoff (Cell Set)",
    .list [.atom "From", .atom "Geoff", .list [.atom "Cell", .atom "Set"]]⟩

theorem process_setLine (l : LocalLedger) :
    (cellRunner setCell rfl).process (.start dryWorld) setLine.event l =
      (.ok ⟨dryWorld.traced "[dry run] Cell setValue" none, none, none, .command⟩, l) := by
  refine process_of_selected (by cbv) (by simp [Session.start, sender_dryWorld])
    (fun scope => by cbv) fun scope hscope => ?_
  change Transaction.send scope.world _ _ _ l = _
  rw [hscope]
  exact Transaction.send_of_dry dry_dryWorld sender_dryWorld _ _ _ l

theorem dry_run_performs_deployments_setCell :
    (cellRunner setCell rfl).vocabulary.PlacesDry (fun o => ∀ kind args, o ≠ .deploy kind args) ∧
    (cellRunner setCell rfl).StaysDry dryWorld settingScript cellLedger ∧
    ((cellRunner setCell rfl).runScript dryWorld settingScript cellLedger).2 = cellLedger := by
  have places : (cellRunner setCell rfl).vocabulary.PlacesDry
      (fun o => ∀ kind args, o ≠ .deploy kind args) := by
    refine placesDry_cellRunner fun scope dry _ =>
      ⟨List.forall_mem_nil _, fun b => ⟨fun l => .refl, ?_⟩⟩
    refine within_dryStep (o := .send LocalLedger.firstCell "setValue" [.string "7"]) dry
      (by simp) fun l => ?_
    exact LedgerM.snd_map _ _ l
  have read : Script.read settingScript = .ok [setLine, setUnderForm] := by decide +kernel
  have dry : (cellRunner setCell rfl).StaysDry dryWorld settingScript cellLedger := by
    intro front l back r d hread ran
    rw [read] at hread
    rcases front with _ | ⟨k, _ | ⟨k', front⟩⟩
    · cases ran
      rfl
    · obtain ⟨rfl, -⟩ := List.cons.inj (Except.ok.inj hread)
      rw [runLines_cons (process_setLine cellLedger)] at ran
      cases ran
      rfl
    · simp at hread
  obtain ⟨requests, -, -, -, unchanged⟩ := dry_run_performs_deployments places dry
  exact ⟨places, dry, unchanged fun kind args h => h kind args rfl⟩

def deployingScript : String := "Cell Deploy"

def deployLine : ScriptLine := ⟨1, "Cell Deploy", .list [.atom "Cell", .atom "Deploy"]⟩

/-- A deployment is mined in a dry run, which goes through and stays dry. -/
theorem deployment_mined_in_dry_run :
    (cellRunner deployCell rfl).vocabulary.PlacesDry (fun _ => True) ∧ dryWorld.Dry ∧
    (cellRunner deployCell rfl).StaysDry dryWorld deployingScript cellLedger ∧
    ∃ r d, (cellRunner deployCell rfl).runScript dryWorld deployingScript cellLedger = (.ok r, d) ∧
      r.world.Dry ∧ r.failedLines = [] ∧ d.chain ≠ cellLedger.chain := by
  have places : (cellRunner deployCell rfl).vocabulary.PlacesDry (fun _ => True) := by
    refine placesDry_cellRunner fun scope dry _ =>
      ⟨List.forall_mem_nil _, fun b => ⟨fun l => .refl, ?_⟩⟩
    refine within_dryStep (o := .deploy "Cell" [.string "5"]) dry trivial fun l => ?_
    exact (LedgerM.snd_map _ _ l).trans (LedgerM.snd_map _ _ l).symm
  have read : Script.read deployingScript = .ok [deployLine] := by decide +kernel
  refine ⟨places, dry_dryWorld, staysDry_single dry_dryWorld read cellLedger, ?_⟩
  have went : (Transaction.deploy dryWorld "Cell" [.string "5"] cellLedger).1.toOption.map
        (fun p => p.1.settings.dryRun) = some true ∧
      (Transaction.deploy dryWorld "Cell" [.string "5"] cellLedger).2.chain.nonce ≠
        cellLedger.chain.nonce := by decide +kernel
  rcases deployed : Transaction.deploy dryWorld "Cell" [.string "5"] cellLedger with
    ⟨e | ⟨v, handle⟩, d⟩
  · rw [deployed] at went
    cases went.1
  · rw [deployed] at went
    have line : (cellRunner deployCell rfl).process (.start dryWorld) deployLine.event cellLedger =
        (.ok ⟨v, none, none, .command⟩, d) := by
      refine process_of_selected (by cbv) (by simp [Session.start, sender_dryWorld])
        (fun scope => ?_) fun scope hscope => ?_
      · generalize cellLedger = l
        cbv
      · change (Prod.fst <$> Transaction.deploy scope.world _ _) cellLedger = _
        rw [hscope]
        exact LedgerM.map_ok deployed _
    rw [runScript_of_read _ _ read]
    refine ⟨_, d, runLines_cons_eq_ok.mpr ⟨_, d, ⟨v, []⟩, line, rfl, rfl⟩, ?_, rfl, ?_⟩
    · exact Option.some.inj went.1
    · exact fun hchain => went.2 (congrArg Chain.nonce hchain)

end Runner

end LedgerScript
