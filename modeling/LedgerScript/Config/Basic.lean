import LedgerScript.World.Basic

/-!
# Configurations
-/

set_option autoImplicit false

namespace LedgerScript

structure Config where
  network : String
  dryRun : Bool
  defaultFrom : String
  accounts : List String
  /-- Ends a run at every failure of an operation, not at the fatal ones alone. -/
  haltOnFailure : Bool
  flags : Fields String
  deriving DecidableEq

namespace Config

def defaultAccounts : List String := ["Root", "Geoff", "Torrey", "Robert", "Coburn", "Jared"]

def standard : Config where
  network := Settings.standard.network
  dryRun := Settings.standard.dryRun
  defaultFrom := Settings.standard.defaultFrom
  accounts := defaultAccounts
  haltOnFailure := false
  flags := .empty

def settings (c : Config) : Settings := ⟨c.network, c.dryRun, c.defaultFrom, c.flags⟩

end Config

end LedgerScript
