import MarketTape.Draw.Generator
import MarketTape.Emitter.Basic
import MarketTape.Path
import MarketTape.Text.Blank

/-!
# Settings

What a tape is to be, and where it goes. A tape is only made from settings that
pass `Settings.check`: they name a symbol and a file, ask for at least one tick,
keep the book open at every mid, start within the bounds of the walk, and leave
the clock room for the longest time that the ticks can take.
-/

namespace MarketTape

/-- What a tape is to be, and where it goes. -/
structure Settings where
  outputDir : String
  fileName : String
  tickCount : Int64
  symbol : String
  /-- The seed of the draws; without one a fresh seed is taken. -/
  seed : Option UInt64
  /-- The time of the tape's start, in nanoseconds since the epoch. -/
  start : UInt64
  initialMid : Binary64
  spread : Binary64
  /-- The least important events that are reported. -/
  logLevel : String
deriving DecidableEq, Repr

/-- Why settings cannot be used. -/
inductive SettingsError where
  | tickCount (count : Int64)
  | emptySymbol
  | emptyFileName
  | spread (spread : Binary64)
  | clock (start : UInt64) (ticks : Int64)
  | initialMid (mid : Binary64)
deriving DecidableEq, Repr

/-- The text of a settings error. -/
def SettingsError.message : SettingsError → String
  | .tickCount count => s!"tick count must be positive, got {count.toInt}"
  | .emptySymbol => "symbol must not be empty"
  | .emptyFileName => "file name must not be empty"
  | .spread width =>
    "spread " ++ width.text .plain ++ " does not keep bid below ask after rounding to cents"
  | .clock start ticks =>
    s!"{ticks.toInt} ticks from start {start.toNat} may run past the end of the nanosecond clock"
  | .initialMid mid => "initial mid " ++ mid.text .plain ++ " outside the walk range [90, 110]"

namespace Settings

/-- The settings where nothing else is asked for. -/
def standard : Settings where
  outputDir := "data"
  fileName := "synthetic_ticks.csv"
  tickCount := 1000
  symbol := Emitter.standardSymbol
  seed := none
  start := Emitter.standardStart
  initialMid := 100
  spread := 0.02
  logLevel := "info"

/-- Whether the clock has room for ticks that all take as long as they can. -/
def clockSuffices (settings : Settings) : Bool :=
  settings.start.toNat + settings.tickCount.toInt.toNat * Generator.maxTimeStep < UInt64.size

/-- The first rule that settings break, if they break one. -/
def check (settings : Settings) : Except SettingsError Unit :=
  if settings.tickCount ≤ 0 then .error (.tickCount settings.tickCount)
  else if Text.isAllBlank settings.symbol then .error .emptySymbol
  else if Text.isAllBlank settings.fileName then .error .emptyFileName
  else if !Walk.staysOpen settings.spread then .error (.spread settings.spread)
  else if !settings.clockSuffices then .error (.clock settings.start settings.tickCount)
  else if Walk.lowest ≤ settings.initialMid ∧ settings.initialMid ≤ Walk.highest then .ok ()
  else .error (.initialMid settings.initialMid)

/-- How many ticks usable settings ask for. -/
def ticks (settings : Settings) : Except SettingsError Nat :=
  settings.check.map fun _ => settings.tickCount.toInt.toNat

/-- Where the tape goes. -/
def outputPath (settings : Settings) : String := Path.join settings.outputDir settings.fileName

/-- The emitter of the tape, with draws from a seed. -/
def emitter (settings : Settings) (seed : UInt64) : Emitter (Generator Keystream) where
  symbol := settings.symbol
  clock := settings.start
  walk := Walk.start settings.initialMid settings.spread
  source := Generator.ofSeed seed

/-- Whether two settings ask for the same: directories are compared as paths and
numbers by value, so that a NaN asks for nothing that could be the same. -/
def agrees (a b : Settings) : Bool :=
  Path.agrees a.outputDir b.outputDir && a.fileName == b.fileName &&
    a.tickCount == b.tickCount && a.symbol == b.symbol && a.seed == b.seed &&
    a.start == b.start && decide (a.initialMid ≤ b.initialMid ∧ b.initialMid ≤ a.initialMid) &&
    decide (a.spread ≤ b.spread ∧ b.spread ≤ a.spread) && a.logLevel == b.logLevel

end Settings

end MarketTape
