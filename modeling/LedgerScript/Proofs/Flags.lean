import LedgerScript.Proofs.Binding
import LedgerScript.Proofs.Selection
import LedgerScript.Proofs.StandardOperations
import LedgerScript.Proofs.Worlds

/-!
# Flags with reserved keys

A setting whose key is a reserved word is refused as a flag, in any letter case and with or
without quotes. The guard looks at words only: a key that is written as a value expression is
evaluated and stored, whatever it comes to. So in a run over operations that leave the settings
alone, a reserved key among the flags is always the value of such an expression.
-/

set_option autoImplicit false

namespace LedgerScript

variable {σ : Type}

def Change.KeepsSettings (run : Change σ) : Prop :=
  ∀ scope b s w t, run scope b s = (.ok w, t) → w.settings = scope.world.settings

theorem Change.Makes.keepsSettings {Q : World → World → Prop} {run : Change σ}
    (h : run.Makes Q) (hQ : ∀ w v, Q w v → v.settings = w.settings) : run.KeepsSettings :=
  fun _ _ _ _ _ ran => hQ _ _ (h.apply ran)

def Operation.KeepsSettings (op : Operation σ) : Prop := Change.KeepsSettings op.execute

def Family.KeepsSettings (f : Family σ) : Prop := ∀ op ∈ f.operations, op.KeepsSettings

/-- The command families are standard ones and others that write no settings. -/
def Vocabulary.StandardSettings (v : Vocabulary σ) : Prop :=
  ∀ name f, v.commandFamily? name = some f → f ∈ Standard.commandFamilies ∨ f.KeepsSettings

theorem Vocabulary.StandardSettings.addCommands {v : Vocabulary σ} (h : v.StandardSettings)
    {f : Family σ} (hf : f ∈ Standard.commandFamilies ∨ f.KeepsSettings) :
    (v.addCommands f).StandardSettings := by
  intro name g named
  rcases named_of_addCommands named with rfl | hv
  · exact hf
  · exact h name g hv

theorem Vocabulary.standardSettings_standard :
    (Standard.vocabulary : Vocabulary σ).StandardSettings :=
  fun _ _ named => .inl (Standard.mem_commandFamilies named)

namespace Standard

theorem keepsSettings_or_eq_settingFamily {f : Family σ} (h : f ∈ commandFamilies) :
    f.KeepsSettings ∨ f = settingFamily := by
  have reading (op : Operation σ) (mem : op ∈ readOperations ∨ op ∈ printOperations) :
      op.KeepsSettings :=
    (makes_reading mem).keepsSettings (by rintro w v ⟨_, rfl⟩; rfl)
  simp only [commandFamilies, List.mem_cons, List.not_mem_nil, or_false] at h
  rcases h with rfl | rfl | rfl | rfl | rfl
  · exact .inl fun op mem => (makes_assertion mem).keepsSettings fun _ _ h => by rw [h]
  · exact .inl fun op mem => reading op (.inl mem)
  · exact .inl fun op mem => reading op (.inr mem)
  · exact .inl fun op mem => (makes_alias mem).keepsSettings (by rintro w v ⟨_, _, rfl⟩; rfl)
  · exact .inr rfl

section Setting

theorem changeSettings_eq_ok {f : Settings → Arguments → Except Failure Settings} {scope : Scope σ}
    {b : Arguments} {s t : σ} {w : World} (h : changeSettings f scope b s = (.ok w, t)) :
    ∃ settings, f scope.world.settings b = .ok settings ∧ w.settings = settings := by
  obtain ⟨settings, u, hsettings, hw⟩ := LedgerM.bind_eq_ok.mp h
  cases hw
  exact ⟨settings, (LedgerM.lift_eq_ok.mp hsettings).1, rfl⟩

theorem flags_of_changeSettings {α : Type} {x : Arguments → Except Failure α}
    {g : Settings → α → Settings} (keeps : ∀ s a, (g s a).flags = s.flags) {scope : Scope σ}
    {b : Arguments} {s t : σ} {w : World}
    (h : changeSettings (fun s b => do return g s (← x b)) scope b s = (.ok w, t)) :
    w.settings.flags = scope.world.settings.flags := by
  obtain ⟨settings, hset, hw⟩ := changeSettings_eq_ok h
  obtain ⟨a, -, hpure⟩ := exists_of_bind_eq_ok hset
  cases hpure
  rw [hw, keeps]

theorem setFlag_eq_ok {s r : Settings} {b : Arguments} (h : setFlag s b = .ok r) :
    ∃ key value, b.string "key" = .ok key ∧ b.string "value" = .ok value ∧
      r.flags = s.flags.insert key value := by
  obtain ⟨key, hkey, hrest⟩ := exists_of_bind_eq_ok h
  obtain ⟨value, hvalue, hpure⟩ := exists_of_bind_eq_ok hrest
  cases hpure
  exact ⟨key, value, hkey, hvalue, rfl⟩

theorem leadsWith_settingFamily : (settingFamily : Family σ).LeadsWith settingVerbs := rfl

theorem refused_of_list (scope : Scope σ) (es others : List Event) (s : σ) :
    ∃ attempts, Family.firstOf (fun q => q.bind scope (.list es :: others))
      settingFamily.regular s = (.error attempts, s) := by
  apply Family.firstOf_of_refused
  intro q hq hverb
  rw [Operation.hasVerb_list (leadsWith_settingFamily.leadsWithVerb hq)] at hverb
  cases hverb

theorem flags_of_regular {op : Operation σ} (mem : op ∈ settingFamily.regular) {scope : Scope σ}
    {b : Arguments} {s t : σ} {w : World} (h : op.execute scope b s = (.ok w, t)) :
    w.settings.flags = scope.world.settings.flags := by
  have hmem : op ∈ settingOperations.take 3 := mem
  simp only [settingOperations, List.take, List.mem_cons, List.not_mem_nil, or_false] at hmem
  rcases hmem with rfl | rfl | rfl
  · exact flags_of_changeSettings (x := (·.bool "enabled")) (g := fun r a => { r with dryRun := a })
      (fun _ _ => rfl) h
  · exact flags_of_changeSettings (x := (·.string "name")) (g := fun r a => { r with network := a })
      (fun _ _ => rfl) h
  · exact flags_of_changeSettings (x := (·.address "account"))
      (g := fun r a => { r with defaultFrom := a }) (fun _ _ => rfl) h

def keyParam : Param σ := { name := "key", shape := .noneOf .string settingVerbs, catchall := true }

def flagParams : List (Param σ) := [keyParam, stringParam "value"]

def storeFlag : Operation σ :=
  .view "" flagParams (changeSettings setFlag) "Stores any other `key value` pair as a flag."

theorem fallbacks_settingFamily : (settingFamily : Family σ).fallbacks = [storeFlag] := rfl

theorem plain_flagParams : ∀ p ∈ (flagParams : List (Param σ)), p.Plain := by
  intro p hp
  simp only [flagParams, List.mem_cons, List.not_mem_nil, or_false] at hp
  rcases hp with rfl | rfl
  · exact ⟨rfl, rfl, rfl⟩
  · exact ⟨rfl, rfl, rfl⟩

def flagArguments (key value : Value) : Arguments :=
  (Fields.empty.insert "key" key).insert "value" value

theorem get?_key (key value : Value) : (flagArguments key value).get? "key" = some key := by
  rw [flagArguments, Fields.get?_insert, if_neg (by decide), Fields.get?_insert, if_pos rfl]

theorem get?_value (key value : Value) : (flagArguments key value).get? "value" = some value := by
  rw [flagArguments, Fields.get?_insert, if_pos rfl]

theorem bindFallback_eq_ok {scope : Scope σ} {tokens : List Event} {b : Arguments} {s t : σ} :
    storeFlag.bindFallback scope tokens s = (.ok b, t) ↔
      ∃ first second rest key value u, tokens = first :: second :: rest ∧
        b = flagArguments key value ∧ keyParam.shape.read scope first s = (.ok key, u) ∧
        Shape.string.read scope second u = (.ok value, t) := by
  constructor
  · intro h
    have bound : Arguments.bind scope flagParams tokens true s = (.ok b, t) := h
    rw [Arguments.bind_of_plain plain_flagParams] at bound
    obtain ⟨taken, extra, rfl, htaken⟩ := Arguments.taken_of_bindExplicits plain_flagParams
      (by simp [flagParams, keyParam, stringParam])
      (by simp [flagParams, keyParam, stringParam, Param.absent?]) bound
    cases htaken with
    | cons hfirst htaken =>
      cases htaken with
      | cons hsecond htaken =>
        cases htaken
        exact ⟨_, _, extra, _, _, _, rfl, rfl, hfirst, hsecond⟩
  · rintro ⟨first, second, rest, key, value, u, rfl, rfl, hfirst, hsecond⟩
    exact Arguments.bind_of_taken_extra plain_flagParams rest
      (.cons hfirst (.cons hsecond (.nil _ _)))

/-- The word has a setting of its own, in some letter case. -/
def Reserved (key : String) : Prop := settingVerbs.any (Text.sameWord key) = true

theorem read_key_list {scope : Scope σ} {es : List Event} {key : String} {s u : σ} :
    keyParam.shape.read scope (.list es) s = (.ok (.string key), u) ↔
      scope.evaluate (.list es) s = (.ok (.string key), u) := by
  change Shape.evaluateAs scope (.list es) "String" (·.string?.isSome) s = _ ↔ _
  constructor
  · intro h
    obtain ⟨v, t, hv, haccepted⟩ := LedgerM.bind_eq_ok.mp h
    split at haccepted
    · cases haccepted
      exact hv
    · cases haccepted
  · intro h
    exact LedgerM.bind_ok h _

theorem exists_list_of_read_key {scope : Scope σ} {token : Event} {key : String} {s u : σ}
    (reserved : Reserved key) (read : keyParam.shape.read scope token s = (.ok (.string key), u)) :
    ∃ es, token = .list es := by
  cases token with
  | atom word =>
    rw [keyParam, Shape.read] at read
    split at read
    · cases read
    · next hword =>
      cases read
      exact absurd reserved hword
  | list es => exact ⟨es, rfl⟩

end Setting

end Standard

namespace Runner

open Standard (Reserved)

/-- The line, perhaps in forms, is a setting whose key is written as an expression. From the
ledger `s` the expression comes to the key, and from where that leads the value is read. -/
inductive ComputesFlag (i : Runner σ) (last : Option Failure) (key value : String) :
    World → Event → σ → σ → Prop
  | plain {w : World} {e second : Event} {name : String} {es rest : List Event} {s t u : σ}
      (line : Line.of e = .plain name (.list es :: second :: rest))
      (named : i.vocabulary.commandFamily? name = some Standard.settingFamily)
      (computed : (i.vocabulary.scope w last).evaluate (.list es) s = (.ok (.string key), t))
      (read : Shape.string.read (i.vocabulary.scope w last) second t = (.ok (.string value), u)) :
      ComputesFlag i last key value w e s u
  | sender {w : World} {e who : Event} {command : List Event} {address : String} {s t u : σ}
      (line : Line.of e = .sender who command)
      (operand : senderOf (i.vocabulary.scope w last) who s = (.ok address, t))
      (inside : ComputesFlag i last key value (w.withTxOptions ⟨some address, w.txOptions.value⟩)
        (.list command) t u) :
      ComputesFlag i last key value w e s u
  | value {w : World} {e amount : Event} {command : List Event} {a : Option String} {s t u : σ}
      (line : Line.of e = .value amount command)
      (operand : amountOf (i.vocabulary.scope w last) amount s = (.ok a, t))
      (inside : ComputesFlag i last key value (w.withTxOptions ⟨w.txOptions.sender, a⟩)
        (.list command) t u) :
      ComputesFlag i last key value w e s u

section Storing

variable {scope : Scope σ} {rest : List Event} {op : Operation σ} {b : Arguments} {s t u : σ}
  {key value : String}

theorem computed_of_stored {v : World} (reserved : Reserved key)
    (selected : Standard.settingFamily.select scope rest s = (.ok (op, b), t))
    (executed : op.execute scope b t = (.ok v, u))
    (absent : scope.world.settings.flags.get? key = none)
    (stored : v.settings.flags.get? key ≠ none) :
    ∃ es second others value d, rest = .list es :: second :: others ∧
      scope.evaluate (.list es) s = (.ok (.string key), d) ∧
      Shape.string.read scope second d = (.ok (.string value), t) := by
  rcases Family.select_eq_ok selected with mem | ⟨attempts, d, refused, fallback⟩
  · rw [Standard.flags_of_regular mem executed] at stored
    exact absurd absent stored
  · rw [Standard.fallbacks_settingFamily] at fallback
    obtain ⟨rfl, bound⟩ := Family.firstOf_singleton_eq_ok fallback
    obtain ⟨settings, hset, hsettings⟩ := Standard.changeSettings_eq_ok executed
    obtain ⟨found, value, hkey, hvalue, hflags⟩ := Standard.setFlag_eq_ok hset
    rw [hsettings, hflags, Fields.get?_insert] at stored
    by_cases hfound : found = key
    · subst hfound
      obtain ⟨first, second, others, k, x, d', rfl, rfl, hfirst, hsecond⟩ :=
        Standard.bindFallback_eq_ok.mp bound
      cases (Standard.get?_key k x).symm.trans (Arguments.get?_of_string hkey)
      cases (Standard.get?_value _ x).symm.trans (Arguments.get?_of_string hvalue)
      obtain ⟨es, rfl⟩ := Standard.exists_list_of_read_key reserved hfirst
      obtain ⟨_, hrefused⟩ := Standard.refused_of_list scope es (second :: others) s
      rw [hrefused] at refused
      cases refused
      exact ⟨es, second, others, value, d', rfl, Standard.read_key_list.mp hfirst, hsecond⟩
    · rw [if_neg hfound] at stored
      exact absurd absent stored

theorem select_of_computed {es : List Event} {second : Event}
    (computed : scope.evaluate (.list es) s = (.ok (.string key), t))
    (read : Shape.string.read scope second t = (.ok (.string value), u)) (others : List Event) :
    Standard.settingFamily.select scope (.list es :: second :: others) s =
      (.ok (Standard.storeFlag, Standard.flagArguments (.string key) (.string value)), u) := by
  obtain ⟨_, refused⟩ := Standard.refused_of_list scope es (second :: others) s
  have bound := Standard.bindFallback_eq_ok.mpr ⟨_, _, others, _, _, _, rfl, rfl,
    Standard.read_key_list.mpr computed, read⟩
  exact Family.select_of_fallback refused (Family.firstOf_cons_of_ok bound)

theorem execute_storeFlag (scope : Scope σ) (key value : String) (s : σ) :
    Standard.storeFlag.execute scope (Standard.flagArguments (.string key) (.string value)) s =
      (.ok (scope.world.withSettings { scope.world.settings with
        flags := scope.world.settings.flags.insert key value }), s) := by
  have hset : Standard.setFlag scope.world.settings
      (Standard.flagArguments (.string key) (.string value)) =
        .ok { scope.world.settings with
          flags := scope.world.settings.flags.insert key value } := by
    rw [Standard.setFlag, Arguments.string_of_get? (Standard.get?_key _ _),
      Arguments.string_of_get? (Standard.get?_value _ _)]
    rfl
  exact LedgerM.lift_bind_ok hset _ s

end Storing

/-- A line that puts a reserved key among the flags has computed it. -/
theorem computesFlag_of_leads {i : Runner σ} (standard : i.vocabulary.StandardSettings)
    {last : Option Failure} {key : String} (reserved : Reserved key) {w v : World} {e : Event}
    {s : σ} (leads : i.Leads last w e s v) (absent : w.settings.flags.get? key = none)
    (stored : v.settings.flags.get? key ≠ none) :
    ∃ value t, i.ComputesFlag last key value w e s t := by
  induction leads with
  | failed => exact absurd absent stored
  | traced => exact absurd absent stored
  | @changed w v e name rest family op b s t u line named selected executed =>
    have kept (keeps : family.KeepsSettings) : v.settings = w.settings :=
      keeps op (Family.mem_operations_of_select selected) _ _ _ _ _ executed
    rcases standard name family named with mem | keeps
    · rcases Standard.keepsSettings_or_eq_settingFamily mem with keeps | rfl
      · rw [kept keeps] at stored
        exact absurd absent stored
      · obtain ⟨es, second, others, value, d, rfl, computed, read⟩ :=
          computed_of_stored reserved selected executed absent stored
        exact ⟨value, t, .plain line named computed read⟩
    · rw [kept keeps] at stored
      exact absurd absent stored
  | sender line operand inside ih =>
    obtain ⟨value, t, computes⟩ := ih absent stored
    exact ⟨value, t, .sender line operand computes⟩
  | value line operand inside ih =>
    obtain ⟨value, t, computes⟩ := ih absent stored
    exact ⟨value, t, .value line operand computes⟩

theorem flags_of_nested {i : Runner σ} {last : Option Failure} {w : World} {options : TxOptions}
    {command : List Event} {s t : σ} {flags : Fields String}
    (h : ∃ o, i.route (w.withTxOptions options) last (.list command) s = (.ok o, t) ∧
      o.failure = none ∧ o.world.settings.flags = flags) :
    ∃ o, i.nested w last options command s = (.ok o, t) ∧ o.failure = none ∧
      o.world.settings.flags = flags := by
  obtain ⟨o, hroute, hsuccess, hflags⟩ := h
  refine ⟨_, LedgerM.map_ok hroute _, hsuccess, ?_⟩
  rw [Outcome.leave, hsuccess]
  exact hflags

theorem route_of_computesFlag {i : Runner σ} {last : Option Failure} {key value : String}
    {w : World} {e : Event} {s t : σ} (h : i.ComputesFlag last key value w e s t) :
    ∃ o, i.route w last e s = (.ok o, t) ∧ o.failure = none ∧
      o.world.settings.flags = w.settings.flags.insert key value := by
  induction h with
  | @plain w e second name es rest s t u line named computed read =>
    have executed := execute_storeFlag (i.vocabulary.scope w last) key value u
    rw [route_selected line named (select_of_computed computed read rest)]
    exact ⟨_, runChange_of_ok (by rintro ⟨⟩) executed, rfl, rfl⟩
  | sender line operand inside ih =>
    rw [route_sender line operand]
    exact flags_of_nested ih
  | value line operand inside ih =>
    rw [route_value line operand]
    exact flags_of_nested ih

/-- At every point of a run, a reserved key among the flags was put there by a line before that
point whose key is an expression that came to it; and every line of that kind stores its key. A
key that is written as a word, in quotes or not, never becomes a reserved flag. -/
theorem reserved_flag_computed {i : Runner σ} (standard : i.vocabulary.StandardSettings) {w : World}
    (clean : ∀ key, Reserved key → w.settings.flags.get? key = none) {lines : List ScriptLine}
    {r : Report} {c d : σ} (reached : i.runLines (.start w) lines c = (.ok r, d)) :
    (∀ key, Reserved key → r.world.settings.flags.get? key ≠ none →
      ∃ front l back q value u v, lines = front ++ l :: back ∧
        i.runLines (.start w) front c = (.ok q, u) ∧
        i.ComputesFlag (commandFailure q.lines) key value q.world l.event u v) ∧
    ∀ e key value s t, i.ComputesFlag (commandFailure r.lines) key value r.world e s t →
      ∃ o, i.process ⟨r.world, commandFailure r.lines⟩ e s = (.ok o, t) ∧ o.failure = none ∧
        o.world.settings.flags = r.world.settings.flags.insert key value := by
  refine ⟨fun key reserved stored => ?_, fun e key value s t h => route_of_computesFlag h⟩
  obtain ⟨front, l, back, q, o, u, v, hlines, hfront, hline, habsent, hstored⟩ :=
    exists_line_of_reached (P := fun w => w.settings.flags.get? key ≠ none) reached
      (not_not_intro (clean key reserved)) stored
  rw [Session.afterRun_start] at hline
  obtain ⟨value, t, computes⟩ := computesFlag_of_leads standard reserved
    (leads_of_route l.event hline) (not_not.mp habsent) hstored
  exact ⟨front, l, back, q, value, u, t, hlines, hfront, computes⟩

theorem standardSettings_bankRunner : bankRunner.vocabulary.StandardSettings := by
  have keeps : refusing.KeepsSettings := by
    intro scope b s w t h
    cases h
  have family : refusingFamily.KeepsSettings := List.forall_mem_singleton.mpr keeps
  exact Vocabulary.standardSettings_standard.addCommands (.inr family)

def dryFlagScript : String := "Setting (String DryRun) yes"

def dryFlagLine : ScriptLine :=
  ⟨1, dryFlagScript,
    .list [.atom "Setting", .list [.atom "String", .atom "DryRun"], .atom "yes"]⟩

def worldOfDryFlag : World :=
  worldOfGeoff.withSettings
    { worldOfGeoff.settings with flags := Fields.empty.insert "DryRun" "yes" }

def dryFlagReport : Report := ⟨worldOfDryFlag, [⟨1, dryFlagScript, .view, none, none⟩]⟩

theorem runLines_dryFlag :
    bankRunner.runLines (.start worldOfGeoff) [dryFlagLine] () = (.ok dryFlagReport, ()) := by
  have line : bankRunner.process (.start worldOfGeoff) dryFlagLine.event () =
      (.ok ⟨worldOfDryFlag, none, none, .view⟩, ()) := by cbv
  exact runLines_cons_eq_ok.mpr ⟨_, _, ⟨worldOfDryFlag, []⟩, line, rfl, rfl⟩

theorem reserved_flag_computed_dryRun :
    Reserved "DryRun" ∧ dryFlagReport.world.settings.flags.get? "DryRun" = some "yes" ∧
      ∃ value, bankRunner.ComputesFlag none "DryRun" value worldOfGeoff dryFlagLine.event () () := by
  have reserved : Reserved "DryRun" := by cbv
  have stored : dryFlagReport.world.settings.flags.get? "DryRun" = some "yes" := by cbv
  obtain ⟨hcomputed, -⟩ := reserved_flag_computed standardSettings_bankRunner (fun _ _ => rfl)
    runLines_dryFlag
  obtain ⟨front, l, back, q, value, u, v, hlines, hfront, computes⟩ :=
    hcomputed "DryRun" reserved (by simp [stored])
  cases front with
  | nil =>
    cases hlines
    cases hfront
    exact ⟨reserved, stored, value, computes⟩
  | cons k front =>
    have hlength := congrArg List.length hlines
    simp at hlength

/-- The guard does not see a key that is computed: dry runs get a flag and stay off. -/
theorem dryRun_stored_as_flag :
    bankRunner.vocabulary.StandardSettings ∧
    (∀ key, Reserved key → worldOfGeoff.settings.flags.get? key = none) ∧
    Reserved "DryRun" ∧
    bankRunner.runScript worldOfGeoff dryFlagScript () = (.ok dryFlagReport, ()) ∧
    dryFlagReport.world.settings.flags.get? "DryRun" = some "yes" ∧
    dryFlagReport.world.settings.dryRun = false := by
  have read : Script.read dryFlagScript = .ok [dryFlagLine] := by decide +kernel
  refine ⟨standardSettings_bankRunner, fun _ _ => rfl, by cbv, ?_, by cbv, rfl⟩
  rw [runScript_of_read _ _ read]
  exact runLines_dryFlag

end Runner

end LedgerScript
