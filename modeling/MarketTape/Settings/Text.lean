import MarketTape.Settings.Basic
import MarketTape.Text.Utf8
import MarketTape.Toml.Document

/-!
# Settings from a text

Settings are written as a flat TOML document. Every setting may be left out, none
may be given twice, and no other key may be there. A whole number stands for a
price or a spread as well, but not the other way round; a seed and a start must
not be negative.
-/

namespace MarketTape

/-- Why settings could not be loaded. -/
inductive LoadError where
  | unreadable (path : String)
  | malformed
deriving DecidableEq, Repr

/-- The text of a load error. -/
def LoadError.message : LoadError → String
  | .unreadable path => "failed to read '" ++ path ++ "'"
  | .malformed => "failed to parse config"

/-- The settings that a text can give. -/
inductive Setting where
  | outputDir
  | fileName
  | tickCount
  | symbol
  | seed
  | start
  | initialMid
  | spread
  | logLevel
deriving DecidableEq, Repr

namespace Setting

/-- All settings. -/
def all : List Setting :=
  [.outputDir, .fileName, .tickCount, .symbol, .seed, .start, .initialMid, .spread, .logLevel]

/-- The key of a setting. -/
def key : Setting → String
  | .outputDir => "output_dir"
  | .fileName => "file_name"
  | .tickCount => "tick_count"
  | .symbol => "symbol"
  | .seed => "seed"
  | .start => "start_timestamp_ns"
  | .initialMid => "initial_mid"
  | .spread => "spread"
  | .logLevel => "log_level"

/-- The setting with a key. -/
def ofKey? (key : String) : Option Setting := all.find? (·.key == key)

@[simp] theorem ofKey?_key (setting : Setting) : ofKey? setting.key = some setting := by
  cases setting <;> rfl

end Setting

namespace Settings

/-- An integer that is not negative. -/
def unsigned? (value : Int64) : Option UInt64 := if 0 ≤ value then some value.toUInt64 else none

/-- The settings with one of them replaced, if the value is of its kind. -/
def replace? (settings : Settings) : Setting → Toml.Scalar → Option Settings
  | .outputDir, .text value => some { settings with outputDir := value }
  | .fileName, .text value => some { settings with fileName := value }
  | .tickCount, .integer value => some { settings with tickCount := value }
  | .symbol, .text value => some { settings with symbol := value }
  | .seed, .integer value =>
    (unsigned? value).map fun value => { settings with seed := some value }
  | .start, .integer value =>
    (unsigned? value).map fun value => { settings with start := value }
  | .initialMid, .number value => some { settings with initialMid := value }
  | .initialMid, .integer value =>
    some { settings with initialMid := Binary64.ofInt value.toInt }
  | .spread, .number value => some { settings with spread := value }
  | .spread, .integer value => some { settings with spread := Binary64.ofInt value.toInt }
  | .logLevel, .text value => some { settings with logLevel := value }
  | _, _ => none

/-- The settings with those replaced that entries name. -/
def replaceAll? (settings : Settings) : List Toml.Entry → Option Settings
  | [] => some settings
  | entry :: entries =>
    match Setting.ofKey? entry.key with
    | none => none
    | some setting =>
      match settings.replace? setting entry.value with
      | none => none
      | some settings => settings.replaceAll? entries

/-- The settings that entries give, the rest being standard. -/
def ofEntries? (entries : List Toml.Entry) : Option Settings :=
  if (entries.map Toml.Entry.key).Nodup then standard.replaceAll? entries else none

/-- The settings that a text gives. -/
def ofText (text : String) : Except LoadError Settings :=
  match (Toml.entries? text).bind ofEntries? with
  | some settings => .ok settings
  | none => .error .malformed

/-- The settings in the contents of a file, which `none` stands for if there are
none. -/
def ofContents (path : String) (contents : Option ByteArray) : Except LoadError Settings :=
  match contents.map Text.ofBytes with
  | some (.ok text) => ofText text
  | _ => .error (.unreadable path)

end Settings

end MarketTape
