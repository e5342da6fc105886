import MarketTape.Command.Arguments
import MarketTape.Generation

/-!
# The command

The command makes a tape from its words: the standard settings, those of a
settings file where one is named, and those given as flags, each over the ones
before.
-/

namespace MarketTape

/-- Why a well-formed command failed. -/
inductive CommandError where
  | loading (path : String) (cause : LoadError)
  | generation (error : GenerationError)
deriving DecidableEq, Repr

/-- The text of a command error. -/
def CommandError.message : CommandError → String
  | .loading path _ => "loading " ++ path
  | .generation error => error.message

/-- What lies behind a command error, where it has a cause of its own. -/
def CommandError.cause : CommandError → Option String
  | .loading _ cause => some cause.message
  | .generation _ => none

/-- What became of a command. -/
inductive Outcome where
  | misused (error : UsageError)
  | failed (error : CommandError)
  | made (report : Report)

namespace Outcome

/-- The exit code of an outcome. -/
def code : Outcome → UInt32
  | .misused .helpWanted => 0
  | .misused _ => 2
  | .failed _ => 1
  | .made _ => 0

/-- What is said of a tape that was made. -/
def success : Outcome → Option String
  | .made report =>
    some s!"Generated {report.path} with {report.records} ticks (seed {report.seed.toNat})"
  | .misused _ | .failed _ => none

/-- What is said of a failure. -/
def failure : Outcome → Option String
  | .failed error => some ("Error: " ++ error.message)
  | .misused _ | .made _ => none

/-- What is said of the cause of a failure. -/
def reason : Outcome → Option String
  | .failed error => error.cause.map ("Caused by: " ++ ·)
  | .misused _ | .made _ => none

end Outcome

namespace Command

variable {m : Type → Type} [Monad m] [World m]

/-- The settings before flags: those of a file where one is named. -/
def baseSettings (arguments : Arguments) : m (Except CommandError Settings) :=
  match arguments.config with
  | none => pure (.ok .standard)
  | some path => do
    let contents ← World.read path
    pure ((Settings.ofContents path contents).mapError (.loading path))

/-- The settings that arguments ask for. -/
def settingsOf (arguments : Arguments) : m (Except CommandError Settings) := do
  let settings ← baseSettings arguments
  pure (settings.map arguments.apply)

/-- Carries out the words of a command. -/
def run (words : List String) : m Outcome :=
  match Arguments.ofWords words with
  | .error error => pure (.misused error)
  | .ok arguments => do
    match ← settingsOf arguments with
    | .error error => pure (.failed error)
    | .ok settings =>
      World.listen settings.logLevel
      match ← Generation.run settings with
      | .error error => pure (.failed (.generation error))
      | .ok report => pure (.made report)

end Command

end MarketTape
