import LedgerScript.Proofs.Runs
import LedgerScript.Proofs.Typing

/-!
# What a registered name changes

A token is looked up in three places: it may be an address itself, an account may have it for a
name, and an entry may be registered under its path. Registration writes to the last place only, and
under the given paths only. As no two tokens have the same path, a line that gives an address a name
changes what this one token stands for, unless something before the registry answers for it.
-/

set_option autoImplicit false

namespace LedgerScript

variable {σ : Type}

theorem Roster.get?_insertAll {α β : Type} [DecidableEq α] (r : Roster α β) (keys : List α)
    (value : β) (k : α) :
    (r.insertAll keys value).get? k = if k ∈ keys then some value else r.get? k := by
  induction keys generalizing r with
  | nil => rfl
  | cons key keys ih =>
    have hstep : r.insertAll (key :: keys) value = (r.insert key value).insertAll keys value := rfl
    rw [hstep, ih, get?_insert]
    by_cases hlater : k ∈ keys
    · simp [hlater]
    · by_cases hkey : key = k
      · simp [hkey]
      · simp [hlater, hkey, Ne.symm hkey]

theorem Path.ofDotted_injective : Function.Injective Path.ofDotted := by
  intro s t h
  have hsegments : s.toList.splitOn '.' = t.toList.splitOn '.' :=
    List.map_injective_iff.mpr (fun _ _ => String.ofList_inj.mp) h
  rw [← String.toList_inj]
  calc s.toList = ['.'].intercalate (s.toList.splitOn '.') := (List.intercalate_splitOn '.').symm
    _ = ['.'].intercalate (t.toList.splitOn '.') := by rw [hsegments]
    _ = t.toList := List.intercalate_splitOn '.'

theorem RegistryEntry.address?_ofAddress (a : String) : (ofAddress a).address? = some a := by
  rw [address?, ofAddress]
  dsimp only
  rw [Fields.get?_insert, if_pos rfl]
  rfl

namespace World

theorem resolve?_register (w : World) (paths : List Path) (entry : RegistryEntry)
    (token : String) :
    (w.register paths entry).resolve? token =
      if isAddress token then some token
      else (w.account? token).or
        (if Path.ofDotted token ∈ paths then entry.address? else w.resolve? token) := by
  have hentry : (w.register paths entry).lookup? token =
      if Path.ofDotted token ∈ paths then some entry else w.lookup? token := by
    simp [lookup?, entry?, register, Roster.get?_insertAll]
  have haccount : (w.register paths entry).account? token = w.account? token := rfl
  rw [resolve?, resolve?, hentry, haccount]
  by_cases hliteral : isAddress token = true
  · simp [hliteral]
  · cases w.account? token with
    | some a => simp [hliteral]
    | none => by_cases hpath : Path.ofDotted token ∈ paths <;> simp [hliteral, hpath]

/-- The second world is the first with a name for an address, as far as tokens can tell. -/
structure Renamed (w v : World) (name address : String) : Prop where
  given : isAddress name = false → w.account? name = none → v.resolve? name = some address
  kept : isAddress name = true ∨ w.account? name ≠ none → v.resolve? name = w.resolve? name
  others : ∀ token, token ≠ name → v.resolve? token = w.resolve? token

theorem renamed_register (w : World) (name address : String) :
    w.Renamed (w.register [Path.ofDotted name] (.ofAddress address)) name address where
  given hliteral haccount := by
    rw [resolve?_register, if_neg (by simp [hliteral]), haccount, Option.none_or,
      if_pos List.mem_cons_self, RegistryEntry.address?_ofAddress]
  kept h := by
    rw [resolve?_register, resolve?]
    by_cases hliteral : isAddress name = true
    · simp [hliteral]
    · obtain ⟨a, haccount⟩ := Option.ne_none_iff_exists'.mp (h.resolve_left hliteral)
      simp [hliteral, haccount]
  others token other := by
    have hpath : Path.ofDotted token ∉ [Path.ofDotted name] := by
      rw [List.mem_singleton]
      exact fun h => other (Path.ofDotted_injective h)
    rw [resolve?_register, if_neg hpath, resolve?]
    by_cases hliteral : isAddress token = true
    · simp [hliteral]
    · cases w.account? token <;> simp [hliteral]

end World

namespace Standard

variable {scope : Scope σ} {n a : Event} {op : Operation σ} {b : Arguments} {c d : σ}

/-- An alias for an address, as its two operands are read one after the other. -/
def Aliases (scope : Scope σ) (n a : Event) (name address : String) (c d : σ) : Prop :=
  ∃ m, Shape.string.read scope n c = (.ok (.string name), m) ∧
    Shape.address.read scope a m = (.ok (.address address), d)

theorem aliases_words_iff {word token name address : String} :
    Aliases scope (.atom word) (.atom token) name address c d ↔
      name = word ∧ scope.world.resolve? token = some address ∧ d = c := by
  constructor
  · rintro ⟨m, hname, haddress⟩
    cases hname
    rw [Shape.read] at haddress
    cases resolved : scope.world.resolve? token with
    | none =>
      rw [resolved] at haddress
      cases haddress
    | some b =>
      rw [resolved] at haddress
      cases haddress
      exact ⟨rfl, rfl, rfl⟩
  · rintro ⟨rfl, resolved, rfl⟩
    refine ⟨d, rfl, ?_⟩
    rw [Shape.read, resolved]
    rfl

def nameParams : List (Param σ) := [stringParam "name", addressParam "address"]

def nameArguments (name address : String) : Arguments :=
  (Fields.empty.insert "name" (.string name)).insert "address" (.address address)

theorem plain_nameParams : ∀ p ∈ (nameParams : List (Param σ)), p.Plain := by
  simp only [nameParams, List.forall_mem_cons]
  exact ⟨⟨rfl, rfl, rfl⟩, ⟨rfl, rfl, rfl⟩, by simp⟩

theorem bind_nameParams_iff :
    Arguments.bind scope nameParams [n, a] false c = (.ok b, d) ↔
      ∃ name address, Aliases scope n a name address c d ∧ b = nameArguments name address := by
  constructor
  · intro bound
    rw [Arguments.bind_of_plain plain_nameParams] at bound
    obtain ⟨taken, extra, hsplit, htaken⟩ := Arguments.taken_of_bindExplicits plain_nameParams
      (by simp [nameParams, stringParam, addressParam])
      (by simp [nameParams, stringParam, addressParam, Param.absent?]) bound
    cases htaken with
    | cons hname rest =>
      cases rest with
      | cons haddress rest =>
        cases rest
        obtain ⟨name, rfl⟩ := Shape.typed_of_read _ _ hname
        obtain ⟨address, rfl⟩ := Shape.typed_of_read _ _ haddress
        cases hsplit
        exact ⟨name, address, ⟨_, hname, haddress⟩, rfl⟩
  · rintro ⟨name, address, ⟨m, hname, haddress⟩, rfl⟩
    exact Arguments.bind_of_taken plain_nameParams false
      (.cons hname (.cons haddress (.nil _ _)))

theorem select_aliasFamily_eq_ok_iff :
    aliasFamily.select scope [n, a] c = (.ok (op, b), d) ↔
      aliasOperations = [op] ∧
        ∃ name address, Aliases scope n a name address c d ∧ b = nameArguments name address := by
  obtain ⟨p, hp⟩ : ∃ p, aliasOperations (σ := σ) = [p] := ⟨_, rfl⟩
  have hregular : (aliasFamily : Family σ).regular = [p] := hp
  have hbind (u : σ) : p.bind scope [n, a] u = Arguments.bind scope nameParams [n, a] false u := by
    cases hp
    rfl
  rw [← bind_nameParams_iff, hp, List.singleton_inj]
  constructor
  · intro selected
    rcases hfirst : Family.firstOf (fun q => q.bind scope [n, a]) aliasFamily.regular c with
      ⟨attempts | ⟨q, e⟩, u⟩
    · rw [Family.select, LedgerM.handle_error hfirst] at selected
      cases selected
    · rw [Family.select, LedgerM.handle_ok hfirst] at selected
      cases selected
      rw [hregular] at hfirst
      obtain ⟨rfl, bound⟩ := Family.firstOf_singleton_eq_ok hfirst
      rw [hbind] at bound
      exact ⟨rfl, bound⟩
  · rintro ⟨rfl, bound⟩
    rw [← hbind] at bound
    refine Family.select_of_regular ?_
    rw [hregular]
    exact Family.firstOf_cons_of_ok bound

theorem execute_nameAddress (name address : String) :
    (nameAddress scope (nameArguments name address) c : _ × σ) =
      (.ok (scope.world.register [Path.ofDotted name] (.ofAddress address)), c) := by
  have hname : (nameArguments name address).string "name" = .ok name :=
    Arguments.string_of_get? (by cbv)
  have haddress : (nameArguments name address).address "address" = .ok address :=
    Arguments.address_of_get? (by cbv)
  rw [nameAddress, LedgerM.lift_bind_ok hname, LedgerM.lift_bind_ok haddress]
  rfl

end Standard

namespace Runner

open Standard (Aliases)

variable {i : Runner σ} {s : Session} {e n a : Event} {c d : σ} {o : Outcome}

theorem of_alias (line : e.unwrapped = .list [.atom "Alias", n, a]) :
    Line.of e = .plain "Alias" [n, a] :=
  Line.of_plain line (by cbv) (by cbv)

theorem process_of_aliases (kept : i.vocabulary.commandFamily? "Alias" = some Standard.aliasFamily)
    (line : e.unwrapped = .list [.atom "Alias", n, a]) {name address : String}
    (aliases : Aliases (i.vocabulary.scope s.world s.lastFailure) n a name address c d) :
    i.process s e c =
      (.ok ⟨s.world.register [Path.ofDotted name] (.ofAddress address), none, none, .view⟩, d) := by
  obtain ⟨op, hop⟩ : ∃ op, Standard.aliasOperations (σ := σ) = [op] := ⟨_, rfl⟩
  have selected := Standard.select_aliasFamily_eq_ok_iff.mpr ⟨hop, name, address, aliases, rfl⟩
  rw [process, route_selected (of_alias line) kept selected]
  cases hop
  exact runChange_of_ok (by rintro ⟨⟩) (Standard.execute_nameAddress name address)

theorem answered_of_refused (kept : i.vocabulary.commandFamily? "Alias" = some Standard.aliasFamily)
    (line : e.unwrapped = .list [.atom "Alias", n, a])
    (refused : ∀ name address t,
      ¬ Aliases (i.vocabulary.scope s.world s.lastFailure) n a name address c t)
    (done : i.process s e c = (.ok o, d)) :
    i.vocabulary.valueFamily? "Alias" ≠ none ∧
      ∀ token, o.world.resolve? token = s.world.resolve? token := by
  rw [process, route_plain (of_alias line)] at done
  rcases hselect : Standard.aliasFamily.select (i.vocabulary.scope s.world s.lastFailure) [n, a] c
    with ⟨r | ⟨op, b⟩, u⟩
  · rw [runPlain_refused kept hselect] at done
    cases named : i.vocabulary.valueFamily? "Alias" with
    | none =>
      rw [runValueLine_unnamed named] at done
      cases done
    | some family =>
      rw [runValueLine_named named] at done
      obtain ⟨⟨op, b⟩, v, -, hfetch⟩ := LedgerM.bind_eq_ok.mp done
      refine ⟨by simp, fun token => ?_⟩
      rcases recovering_cases hfetch with ⟨f, -, rfl⟩ | ⟨v, -, rfl⟩ <;> rfl
  · obtain ⟨-, name, address, aliases, -⟩ := Standard.select_aliasFamily_eq_ok_iff.mp hselect
    exact absurd aliases (refused name address u)

/-- Registration decides what the registered paths stand for and nothing else: a token that is an
address stands for itself, a name of an account for that account, a token with one of the paths for
what the entry has for an address, if anything, and any other token for what it did before. Two
tokens never have one path. So after a line that gives an address a name, this name stands for the
address unless it is an address or an account's name itself, and all other tokens stand for what
they did before the line. -/
theorem alias_changes_one_token {i : Runner σ}
    (kept : i.vocabulary.commandFamily? "Alias" = some Standard.aliasFamily) :
    (∀ (w : World) (paths : List Path) (entry : RegistryEntry) (token : String),
      (w.register paths entry).resolve? token =
        if isAddress token then some token
        else (w.account? token).or
          (if Path.ofDotted token ∈ paths then entry.address? else w.resolve? token)) ∧
    Function.Injective Path.ofDotted ∧
    (∀ (s : Session) (e n a : Event) (c : σ), e.unwrapped = .list [.atom "Alias", n, a] →
      (∀ name address d, Aliases (i.vocabulary.scope s.world s.lastFailure) n a name address c d →
        ∃ o, i.process s e c = (.ok o, d) ∧ o.failure = none ∧
          s.world.Renamed o.world name address) ∧
      ∀ o d, i.process s e c = (.ok o, d) →
        (∃ name address, Aliases (i.vocabulary.scope s.world s.lastFailure) n a name address c d ∧
          s.world.Renamed o.world name address) ∨
        i.vocabulary.valueFamily? "Alias" ≠ none ∧
          ∀ token, o.world.resolve? token = s.world.resolve? token) ∧
    ∀ (s : Session) (word token name address : String) (c d : σ),
      Aliases (i.vocabulary.scope s.world s.lastFailure) (.atom word) (.atom token) name address
          c d ↔
        name = word ∧ s.world.resolve? token = some address ∧ d = c := by
  refine ⟨World.resolve?_register, Path.ofDotted_injective, fun s e n a c line => ⟨?_, ?_⟩,
    fun s word token name address c d => Standard.aliases_words_iff⟩
  · intro name address d aliases
    exact ⟨_, process_of_aliases kept line aliases, rfl, World.renamed_register _ _ _⟩
  · intro o d done
    by_cases given : ∃ name address t,
        Aliases (i.vocabulary.scope s.world s.lastFailure) n a name address c t
    · obtain ⟨name, address, t, aliases⟩ := given
      rw [process_of_aliases kept line aliases] at done
      cases done
      exact .inl ⟨name, address, aliases, World.renamed_register _ _ _⟩
    · simp only [not_exists] at given
      exact .inr (answered_of_refused kept line given done)

def ownerLine : Event := .list [.atom "Alias", .atom "Bank.Owner", .atom "Geoff"]

theorem alias_changes_one_token_owner :
    ∃ o, bankRunner.process (.start worldOfGeoff) ownerLine () = (.ok o, ()) ∧ o.failure = none ∧
      o.world.resolve? "Bank.Owner" = some "0x01" ∧ o.world.resolve? "Bank.Owner." = none ∧
      o.world.resolve? "Geoff" = some "0x01" := by
  obtain ⟨-, -, lines, words⟩ := alias_changes_one_token (i := bankRunner) rfl
  have geoff : worldOfGeoff.resolve? "Geoff" = some "0x01" := rfl
  have dotted : worldOfGeoff.resolve? "Bank.Owner." = none := rfl
  have aliases := (words (.start worldOfGeoff) "Bank.Owner" "Geoff" "Bank.Owner" "0x01" () ()).mpr
    ⟨rfl, geoff, rfl⟩
  obtain ⟨o, hline, hsuccess, renamed⟩ := (lines (.start worldOfGeoff) ownerLine _ _ ()
    (Event.unwrapped_of_word "Alias" _)).1 _ _ _ aliases
  have others : o.world.resolve? "Bank.Owner." = none ∧ o.world.resolve? "Geoff" = some "0x01" :=
    ⟨(renamed.others _ (by decide)).trans dotted, (renamed.others _ (by decide)).trans geoff⟩
  exact ⟨o, hline, hsuccess, renamed.given rfl rfl, others⟩

end Runner

end LedgerScript
