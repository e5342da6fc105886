import MarketTape.Proofs.Settings.Check
import MarketTape.Proofs.Toml.Whole
import MarketTape.Settings.Text

/-!
# Seeds and starts in a text

A tape tells the seed that it was made from, so that it can be made again. A text with
that seed and a start reads back exactly if both lie within the 64 bits of an integer with
a sign, while seeds are drawn from, and starts are accepted up to, all 64 bits.
-/

namespace MarketTape.Settings

open Toml (wholeLimit)

variable {settings : Settings} {seed start : UInt64} {n : Nat}

/-! ## Whole numbers as settings -/

theorem isBareKey_key (setting : Setting) : Toml.IsBareKey setting.key := by
  cases setting <;> decide

/-- The document that gives some settings whole numbers. -/
def wholeText (given : List (Setting × Nat)) : String :=
  Toml.wholeText (given.map fun pair => (pair.1.key, pair.2))

/-- The entries of a document for settings. -/
def wholeEntries (given : List (Setting × Nat)) : List Toml.Entry :=
  given.map fun pair => Toml.wholeEntry (pair.1.key, pair.2)

theorem entries?_wholeText (given : List (Setting × Nat)) :
    Toml.entries? (wholeText given) =
      if ∀ pair ∈ given, pair.2 < wholeLimit then some (wholeEntries given) else none := by
  have hkeys : ∀ pair ∈ given.map fun pair => (pair.1.key, pair.2), Toml.IsBareKey pair.1 := by
    intro pair hmem
    obtain ⟨source, -, rfl⟩ := List.mem_map.mp hmem
    exact isBareKey_key source.1
  rw [wholeText, Toml.entries?_wholeText hkeys, List.map_map]
  simp only [List.forall_mem_map]
  rfl

/-- Numbers within the 64 bits of an integer with a sign are what the settings are read from. -/
theorem ofText_of_lt {given : List (Setting × Nat)} (hall : ∀ pair ∈ given, pair.2 < wholeLimit)
    (hread : ofEntries? (wholeEntries given) = some settings) :
    ofText (wholeText given) = .ok settings := by
  rw [ofText, entries?_wholeText, if_pos hall, Option.bind_some, hread]

/-- A number that is larger spoils the text. -/
theorem ofText_of_not_lt {given : List (Setting × Nat)}
    (hlarge : ¬ ∀ pair ∈ given, pair.2 < wholeLimit) :
    ofText (wholeText given) = .error .malformed := by
  rw [ofText, entries?_wholeText, if_neg hlarge, Option.bind_none]

/-- A whole number within the 64 bits of an integer with a sign is not negative. -/
theorem unsigned?_ofNat (h : n < wholeLimit) :
    unsigned? (Int64.ofNat n) = some (UInt64.ofNat n) := by
  have hzero : Int64.ofNat 0 ≤ Int64.ofNat n :=
    (Int64.ofNat_le_iff_le (by decide) h).mpr (Nat.zero_le n)
  exact if_pos hzero

theorem replace?_seed (settings : Settings) (h : seed.toNat < wholeLimit) :
    settings.replace? .seed (.integer (Int64.ofNat seed.toNat)) =
      some { settings with seed := some seed } := by
  rw [replace?, unsigned?_ofNat h, UInt64.ofNat_toNat]
  rfl

theorem replace?_start (settings : Settings) (h : start.toNat < wholeLimit) :
    settings.replace? .start (.integer (Int64.ofNat start.toNat)) =
      some { settings with start } := by
  rw [replace?, unsigned?_ofNat h, UInt64.ofNat_toNat]
  rfl

/-- The entries of a seed and a start give the settings with both, in either order. -/
theorem ofEntries?_seed_start (hseed : seed.toNat < wholeLimit)
    (hstart : start.toNat < wholeLimit) :
    ofEntries? (wholeEntries [(.seed, seed.toNat), (.start, start.toNat)]) =
      some { standard with seed := some seed, start } ∧
    ofEntries? (wholeEntries [(.start, start.toNat), (.seed, seed.toNat)]) =
      some { standard with seed := some seed, start } := by
  have hnodup : [Setting.seed.key, Setting.start.key].Nodup := by decide
  have hturned : [Setting.start.key, Setting.seed.key].Nodup := by decide
  constructor
  · refine (if_pos hnodup).trans ?_
    simp only [wholeEntries, List.map_cons, List.map_nil, replaceAll?, Toml.wholeEntry,
      Setting.ofKey?_key, replace?_seed _ hseed, replace?_start _ hstart]
  · refine (if_pos hturned).trans ?_
    simp only [wholeEntries, List.map_cons, List.map_nil, replaceAll?, Toml.wholeEntry,
      Setting.ofKey?_key, replace?_seed _ hseed, replace?_start _ hstart]

/-- A seed and a start that are written down read back exactly if both lie within the 64 bits
of an integer with a sign, whichever of them comes first. Otherwise the text gives no settings
at all. -/
theorem ofText_seed_start (seed start : UInt64) :
    ofText (wholeText [(.seed, seed.toNat), (.start, start.toNat)]) =
      (if seed.toNat < wholeLimit ∧ start.toNat < wholeLimit then
        .ok { standard with seed := some seed, start }
      else .error .malformed) ∧
    ofText (wholeText [(.start, start.toNat), (.seed, seed.toNat)]) =
      (if seed.toNat < wholeLimit ∧ start.toNat < wholeLimit then
        .ok { standard with seed := some seed, start }
      else .error .malformed) := by
  have hboth : (∀ pair ∈ [(Setting.seed, seed.toNat), (.start, start.toNat)], pair.2 < wholeLimit) ↔
      seed.toNat < wholeLimit ∧ start.toNat < wholeLimit := by simp
  have hturned : (∀ pair ∈ [(Setting.start, start.toNat), (.seed, seed.toNat)],
      pair.2 < wholeLimit) ↔ seed.toNat < wholeLimit ∧ start.toNat < wholeLimit := by
    simp [and_comm]
  by_cases hfits : seed.toNat < wholeLimit ∧ start.toNat < wholeLimit
  · obtain ⟨hread, hread'⟩ := ofEntries?_seed_start hfits.1 hfits.2
    rw [if_pos hfits]
    exact ⟨ofText_of_lt (hboth.mpr hfits) hread, ofText_of_lt (hturned.mpr hfits) hread'⟩
  · rw [if_neg hfits]
    exact ⟨ofText_of_not_lt (mt hboth.mp hfits), ofText_of_not_lt (mt hturned.mp hfits)⟩

/-- Settings are accepted whatever their seed, and with starts in the upper half of the 64 bits,
but neither a seed nor a start from there can be written down. -/
theorem large_seed_malformed :
    { standard with seed := some 9223372036854775808 }.check = .ok () ∧
    ofText "seed = 9223372036854775808\nstart_timestamp_ns = 1672565400000000000\n" =
      .error .malformed ∧
    { standard with start := 9223372036854775808 }.check = .ok () ∧
    ofText "seed = 1\nstart_timestamp_ns = 9223372036854775808\n" = .error .malformed := by
  refine ⟨?_, by decide +kernel, ?_, by decide +kernel⟩
  · exact check_eq_ok_iff.mpr { usable_standard with }
  · exact check_eq_ok_iff.mpr { usable_standard with clock := by decide }

end MarketTape.Settings
