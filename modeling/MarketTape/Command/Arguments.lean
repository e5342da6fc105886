import MarketTape.Numeral
import MarketTape.Settings.Basic

/-!
# Command line arguments

Settings can be given as flags: a long name with its value behind an equals sign
or in the next word, or a letter with its value right behind it or in the next
word. The words are read from left to right, and the first that makes no sense
ends the reading. A value from a word of its own is only looked at when the next
flag or the end is reached, so that an unknown word right behind it comes first.
-/

namespace MarketTape

/-- The flags that take a value. -/
inductive Flag where
  | config
  | outputDir
  | fileName
  | ticks
  | symbol
  | seed
  | logLevel
deriving DecidableEq, Repr

namespace Flag

/-- All flags. -/
def all : List Flag := [.config, .outputDir, .fileName, .ticks, .symbol, .seed, .logLevel]

/-- The long name of a flag. -/
def name : Flag → String
  | .config => "config"
  | .outputDir => "output-dir"
  | .fileName => "file-name"
  | .ticks => "ticks"
  | .symbol => "symbol"
  | .seed => "seed"
  | .logLevel => "log-level"

/-- The letter of a flag. -/
def letter? : Flag → Option Char
  | .config => some 'c'
  | .ticks => some 'n'
  | .symbol => some 's'
  | .outputDir | .fileName | .seed | .logLevel => none

/-- The flag with a long name. -/
def ofName? (name : String) : Option Flag := all.find? (·.name == name)

@[simp] theorem ofName?_name (flag : Flag) : ofName? flag.name = some flag := by
  cases flag <;> rfl

/-- The flag with a letter. -/
def ofLetter? (letter : Char) : Option Flag := all.find? (·.letter? == some letter)

end Flag

/-- Why the words of a command line are not carried out. -/
inductive UsageError where
  /-- No flag or value could be meant. -/
  | unknownWord (word : String)
  | missingValue (flag : Flag)
  | emptyPath (flag : Flag)
  | invalidNumber (flag : Flag) (text : String)
  | repeatedFlag (flag : Flag)
  /-- The request for help came with a value. -/
  | helpWithValue
  /-- Help is asked for, which is no mistake. -/
  | helpWanted
deriving DecidableEq, Repr

/-- The text of a usage error. -/
def UsageError.message : UsageError → String
  | .unknownWord word => "unexpected argument '" ++ word ++ "' found"
  | .missingValue flag => "a value is required for '--" ++ flag.name ++ "'"
  | .emptyPath flag => "a path is required for '--" ++ flag.name ++ "'"
  | .invalidNumber flag text => "invalid value '" ++ text ++ "' for '--" ++ flag.name ++ "'"
  | .repeatedFlag flag => "the argument '--" ++ flag.name ++ "' cannot be used multiple times"
  | .helpWithValue => "unexpected value for '--help' found"
  | .helpWanted => "Generate a synthetic quote/trade tick file"

/-- What a command line asks for. -/
structure Arguments where
  config : Option String
  outputDir : Option String
  fileName : Option String
  ticks : Option Int64
  symbol : Option String
  seed : Option UInt64
  logLevel : Option String
deriving DecidableEq, Repr

namespace Arguments

/-- The arguments of an empty command line. -/
def none : Arguments := ⟨.none, .none, .none, .none, .none, .none, .none⟩

/-- Whether a flag was given. -/
def has (arguments : Arguments) : Flag → Bool
  | .config => arguments.config.isSome
  | .outputDir => arguments.outputDir.isSome
  | .fileName => arguments.fileName.isSome
  | .ticks => arguments.ticks.isSome
  | .symbol => arguments.symbol.isSome
  | .seed => arguments.seed.isSome
  | .logLevel => arguments.logLevel.isSome

/-- A path, which must not be empty. -/
def path (flag : Flag) (text : String) : Except UsageError String :=
  if text.isEmpty then .error (.emptyPath flag) else .ok text

/-- A number that a numeral denotes. -/
def number (flag : Flag) (text : String) (denoted : Option α) : Except UsageError α :=
  match denoted with
  | some n => .ok n
  | .none => .error (.invalidNumber flag text)

/-- The arguments with a flag and its value, which may be given once. -/
def give (arguments : Arguments) (flag : Flag) (text : String) : Except UsageError Arguments :=
  if arguments.has flag then .error (.repeatedFlag flag)
  else
    match flag with
    | .config => (path flag text).map fun path => { arguments with config := some path }
    | .outputDir => (path flag text).map fun path => { arguments with outputDir := some path }
    | .fileName => .ok { arguments with fileName := some text }
    | .ticks =>
      (number flag text (Numeral.signed? 64 text.toList)).map fun n =>
        { arguments with ticks := some (Int64.ofInt n) }
    | .symbol => .ok { arguments with symbol := some text }
    | .seed =>
      (number flag text (Numeral.unsigned? 64 text.toList)).map fun n =>
        { arguments with seed := some (UInt64.ofNat n) }
    | .logLevel => .ok { arguments with logLevel := some text }

/-- Settings with those replaced that the arguments give. -/
def apply (arguments : Arguments) (settings : Settings) : Settings :=
  { settings with
    outputDir := arguments.outputDir.getD settings.outputDir
    fileName := arguments.fileName.getD settings.fileName
    tickCount := arguments.ticks.getD settings.tickCount
    symbol := arguments.symbol.getD settings.symbol
    seed := arguments.seed.or settings.seed
    logLevel := arguments.logLevel.getD settings.logLevel }

@[simp] theorem apply_none (settings : Settings) : none.apply settings = settings := by
  simp [apply, none]

end Arguments

/-! ## Reading words -/

/-- The shapes of words. -/
inductive WordShape where
  /-- Two dashes and a name, with what stands behind an equals sign. -/
  | long (name : String) (value : Option String)
  /-- One dash and a letter, with what stands behind it. -/
  | short (letter : Char) (rest : List Char)
  | plain

/-- The shape of a word. -/
def WordShape.of (word : String) : WordShape :=
  match word.toList with
  | '-' :: '-' :: body =>
    .long (String.ofList (body.takeWhile (· ≠ '=')))
      (match body.dropWhile (· ≠ '=') with
        | [] => none
        | _ :: value => some (String.ofList value))
  | '-' :: letter :: rest => .short letter rest
  | _ => .plain

/-- Whether some characters look like a number: digits with at most one point
behind the first of them, and perhaps an `e` or `E` with more digits. -/
def looksNumeric (text : List Char) : Bool :=
  let digits := text.takeWhile fun c => c ≠ 'e' ∧ c ≠ 'E'
  let wellFormed := (digits.head?.any Numeral.isDigit) &&
    digits.all (fun c => Numeral.isDigit c || c == '.') && digits.count '.' ≤ 1
  match text.dropWhile fun c => c ≠ 'e' ∧ c ≠ 'E' with
  | [] => wellFormed
  | _ :: exponent => wellFormed && !exponent.isEmpty && exponent.all Numeral.isDigit

/-- A flag whose value is still to come or to be looked at. -/
structure PendingFlag where
  flag : Flag
  value : Option String
deriving DecidableEq, Repr

/-- How far the reading of words has come. -/
structure Reading where
  arguments : Arguments
  pending : Option PendingFlag
deriving DecidableEq, Repr

namespace Reading

/-- The reading before the first word. -/
def start : Reading := ⟨.none, none⟩

/-- The arguments read, the pending flag among them. -/
def settle (reading : Reading) : Except UsageError Arguments :=
  match reading.pending with
  | none => .ok reading.arguments
  | some ⟨flag, none⟩ => .error (.missingValue flag)
  | some ⟨flag, some text⟩ => reading.arguments.give flag text

/-- Goes on to a flag, whose value may come with it. -/
def flag (reading : Reading) (next : Flag) (value : Option String) : Except UsageError Reading :=
  match reading.settle with
  | .error error => .error error
  | .ok arguments =>
    match value with
    | none => .ok ⟨arguments, some ⟨next, none⟩⟩
    | some text => (arguments.give next text).map (⟨·, none⟩)

/-- Goes on to the request for help. -/
def help (reading : Reading) : Except UsageError Reading :=
  match reading.settle with
  | .error error => .error error
  | .ok _ => .error .helpWanted

/-- Takes a word as the value of the pending flag. -/
def value (reading : Reading) (word : String) : Except UsageError Reading :=
  match reading.pending with
  | some ⟨flag, none⟩ => .ok { reading with pending := some ⟨flag, some word⟩ }
  | _ => .error (.unknownWord word)

/-- What stands right behind a letter as its value. An equals sign in front is no
part of it. -/
def attached : List Char → Option String
  | [] => none
  | c :: rest => some (String.ofList (if c = '=' then rest else c :: rest))

/-- Reads one more word. A number below zero can be the value of `ticks`. -/
def word (reading : Reading) (text : String) : Except UsageError Reading :=
  match WordShape.of text with
  | .plain => reading.value text
  | .long name value =>
    if name = "help" then if value.isSome then .error .helpWithValue else reading.help
    else
      match Flag.ofName? name with
      | some next => reading.flag next value
      | none => .error (.unknownWord text)
  | .short letter rest =>
    if reading.pending = some ⟨.ticks, none⟩ ∧ looksNumeric (letter :: rest) then
      reading.value text
    else if letter = 'h' then reading.help
    else
      match Flag.ofLetter? letter with
      | some next => reading.flag next (attached rest)
      | none => .error (.unknownWord text)

/-- Reads words in order. -/
def words (reading : Reading) : List String → Except UsageError Reading
  | [] => .ok reading
  | text :: texts =>
    match reading.word text with
    | .error error => .error error
    | .ok reading => reading.words texts

end Reading

/-- The arguments that words give. Behind two dashes on their own no more flags
are read, and there is nothing else that could stand there. -/
def Arguments.ofWords (words : List String) : Except UsageError Arguments :=
  match Reading.start.words (words.takeWhile (· ≠ "--")) with
  | .error error => .error error
  | .ok reading =>
    match (words.dropWhile (· ≠ "--")).tail with
    | [] => reading.settle
    | extra :: _ => .error (.unknownWord extra)

end MarketTape
