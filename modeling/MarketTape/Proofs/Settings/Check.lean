import MarketTape.Proofs.Walk.Width
import MarketTape.Settings.Basic

/-!
# Usable settings

What the check of settings promises, as one statement for all its rules, and that
the standard settings pass it.
-/

namespace MarketTape.Settings

/-- Settings that pass the check obey every rule. -/
structure Usable (settings : Settings) : Prop where
  tickCount : 0 < settings.tickCount
  symbol : Text.isAllBlank settings.symbol = false
  fileName : Text.isAllBlank settings.fileName = false
  staysOpen : Walk.staysOpen settings.spread = true
  clock : settings.start.toNat + settings.tickCount.toInt.toNat * Generator.maxTimeStep <
    UInt64.size
  lowest_le : Walk.lowest ≤ settings.initialMid
  le_highest : settings.initialMid ≤ Walk.highest

variable {settings : Settings}

theorem check_eq_ok_iff : settings.check = .ok () ↔ settings.Usable := by
  rw [check, clockSuffices]
  constructor
  · intro h
    split at h
    · cases h
    split at h
    · cases h
    split at h
    · cases h
    split at h
    · cases h
    split at h
    · cases h
    split at h
    · rename_i hcount hsymbol hfile hspread hclock hmid
      exact ⟨Int64.not_le.mp hcount, Bool.not_eq_true _ ▸ hsymbol, Bool.not_eq_true _ ▸ hfile,
        by simpa using hspread, by simpa using hclock, hmid.1, hmid.2⟩
    · cases h
  · intro h
    rw [if_neg (Int64.not_le.mpr h.tickCount), h.symbol, h.fileName, h.staysOpen,
      decide_eq_true h.clock]
    simp [h.lowest_le, h.le_highest]

theorem ticks_eq_ok_iff {ticks : Nat} :
    settings.ticks = .ok ticks ↔ settings.Usable ∧ ticks = settings.tickCount.toInt.toNat := by
  rw [Settings.ticks, ← check_eq_ok_iff]
  cases settings.check with
  | error error => simp [Except.map]
  | ok => simp [Except.map, eq_comm]

/-- The standard settings are usable. -/
theorem usable_standard : standard.Usable := by
  have hspread : (0.02 : Binary64) = Price.ofCents (2 * 1 : Nat) := by decide +kernel
  refine ⟨by decide, by decide, by decide, ?_, by decide, by decide +kernel, by decide +kernel⟩
  change Walk.staysOpen 0.02 = true
  rw [hspread]
  exact Walk.staysOpen_ofCents Nat.one_pos (by omega)

end MarketTape.Settings
