import MarketTape.Emitter.Run
import MarketTape.Settings.Text
import MarketTape.Sink.Table
import MarketTape.World.Basic

/-!
# Making a tape

A tape is made from settings, either into any sink or as a file. A file is first
written beside its destination and moved over it only when it is complete and
kept, so that a destination never holds part of a tape; what a failed attempt
leaves beside the destination is removed. Settings are checked before anything is
touched.
-/

namespace MarketTape

/-- The steps on files that can fail. -/
inductive FileStep where
  | makeDirectory
  | create
  | sync
  | rename
deriving DecidableEq, Repr

/-- What a step does to its path, in words. -/
def FileStep.phrase : FileStep → String
  | .makeDirectory => "create directory"
  | .create => "create"
  | .sync => "sync"
  | .rename => "rename into"

/-- Why no tape was made. -/
inductive GenerationError where
  | settings (error : SettingsError)
  /-- The end of the tape could not be written. -/
  | closing (error : SinkError)
  | run (error : RunError)
  | file (step : FileStep) (path : String)
deriving DecidableEq, Repr

/-- The text of a generation error. -/
def GenerationError.message : GenerationError → String
  | .settings error => "invalid configuration: " ++ error.message
  | .closing error => "sink failure: " ++ error.message
  | .run error => "generation aborted: " ++ error.message
  | .file step path => "failed to " ++ step.phrase ++ " '" ++ path ++ "'"

/-- What is known of a tape that was made: where it is, how many records it
holds, the seed that makes it again, and the statistics of its run. -/
structure Report where
  path : String
  records : Nat
  seed : UInt64
  stats : Stats

namespace Generation

/-- Makes a tape from a seed into a sink. -/
def intoSink [RecordSink κ] (settings : Settings) (seed : UInt64) (sink : κ) :
    Except GenerationError Stats × κ :=
  match settings.ticks with
  | .error error => (.error (.settings error), sink)
  | .ok ticks =>
    let result := (settings.emitter seed).run ticks sink
    (result.outcome.mapError .run, result.sink)

/-- The bytes of a tape for a file with some room, and the statistics of its
run. -/
def contents (settings : Settings) (ticks : Nat) (seed : UInt64) (room : Option Nat) :
    Except GenerationError (Stats × ByteArray) :=
  let result := (settings.emitter seed).run ticks (TableSink.start room)
  match result.outcome with
  | .error error => .error (.run error)
  | .ok stats =>
    match result.sink.close with
    | (.ok _, bytes) => .ok (stats, bytes)
    | (.error error, _) => .error (.closing error)

/-- Where the tape of a path is written before it is moved there. -/
def draftPath (path : String) : String := path ++ ".partial"

/-- The event that opens the making of a tape. -/
def opening (settings : Settings) (ticks : Nat) (seed : UInt64) : Event where
  level := .info
  message := "generating synthetic ticks"
  details :=
    [("path", .text settings.outputPath), ("ticks", .count ticks),
      ("symbol", .text settings.symbol), ("seed", .count seed.toNat)]

/-- The event of a file that could not be removed. -/
def leftover (path : String) : Event where
  level := .warn
  message := "failed to remove partial output"
  details := [("path", .text path)]

/-- The event that closes the making of a tape. -/
def completion (path : String) (stats : Stats) : Event where
  level := .info
  message := "generation complete"
  details := [("path", .text path), ("records", .count stats.total)]

variable {m : Type → Type} [Monad m] [World m]

/-- Removes what a failed attempt left at a path. -/
def discard (path : String) : m Unit := do
  match ← World.remove path with
  | .refused => World.report (leftover path)
  | .absent | .removed => pure ()

/-- Writes the whole tape to a path and makes sure that it is kept. -/
def write (settings : Settings) (ticks : Nat) (seed : UInt64) (path : String) :
    m (Except GenerationError Stats) := do
  if ← World.create path then
    World.report ((settings.emitter seed).opening ticks)
    match contents settings ticks seed (← World.room) with
    | .error error => pure (.error error)
    | .ok (stats, bytes) =>
      match ← World.fill path bytes with
      | .error cause => pure (.error (.closing (.output cause)))
      | .ok _ =>
        if ← World.sync path then pure (.ok stats)
        else pure (.error (.file .sync path))
  else pure (.error (.file .create path))

/-- Reports a tape that was moved to its destination. -/
def conclude (path : String) (seed : UInt64) (stats : Stats) : m Report := do
  match stats.summary with
  | .ok summary => World.report summary
  | .error _ => pure ()
  World.report (completion path stats)
  pure { path, records := stats.total, seed, stats }

/-- Makes the tape of settings that ask for a number of ticks, with draws from a
seed. -/
def makeFile (settings : Settings) (ticks : Nat) (seed : UInt64) :
    m (Except GenerationError Report) := do
  let path := settings.outputPath
  World.report (opening settings ticks seed)
  if ← World.makeDirectories settings.outputDir then
    match ← write settings ticks seed (draftPath path) with
    | .error error =>
      discard (draftPath path)
      pure (.error error)
    | .ok stats =>
      if ← World.rename (draftPath path) path then
        let report ← conclude path seed stats
        pure (.ok report)
      else
        discard (draftPath path)
        pure (.error (.file .rename path))
  else pure (.error (.file .makeDirectory settings.outputDir))

/-- The seed of settings, or a fresh one. -/
def seedOf (settings : Settings) : m UInt64 :=
  match settings.seed with
  | some seed => pure seed
  | none => World.freshSeed

/-- Makes the tape that settings ask for as a file. -/
def run (settings : Settings) : m (Except GenerationError Report) :=
  match settings.ticks with
  | .error error => pure (.error (.settings error))
  | .ok ticks => do
    let seed ← seedOf settings
    makeFile settings ticks seed

end Generation

end MarketTape
