import MarketTape.Command.Run

/-!
# The program

The command on the files of the machine it runs on. Events are printed as they
are reported, as far as the asked level lets them through.
-/

namespace MarketTape.Program

/-- What the program does, knowing the word for the level of the events it shows. -/
abbrev Session := StateT String IO

/-- A step on the machine's files that either succeeds or fails. -/
def attempt (step : IO Unit) : Session Bool := do
  try
    step
    pure true
  catch _ => pure false

/-- The contents of a file, if it can be read. -/
def read (path : String) : Session (Option ByteArray) := do
  try
    let contents ← IO.FS.readBinFile path
    pure (some contents)
  catch _ => pure none

/-- Gives a file its contents, and names the cause where it cannot. -/
def fill (path : String) (contents : ByteArray) : Session (Except String Unit) := do
  try
    IO.FS.writeBinFile path contents
    pure (.ok ())
  catch error => pure (.error (toString error))

/-- Removes a file, telling a file that is not there from one that stays. -/
def remove (path : String) : Session Removal := do
  try
    IO.FS.removeFile path
    pure .removed
  catch error =>
    match error with
    | .noFileOrDirectory .. => pure .absent
    | _ => pure .refused

/-- A seed from the machine's own randomness. -/
def freshSeed : Session UInt64 := do
  let bytes ← IO.getRandomBytes 8
  pure (bytes.toList.foldl (fun word byte => word * 256 + byte.toUInt64) 0)

/-- Prints an event if its level is asked for. -/
def report (event : Event) : Session Unit := do
  if event.isShown (← get) then IO.println event.line

instance : World Session where
  read := read
  makeDirectories path := if path.isEmpty then pure true else attempt (IO.FS.createDirAll path)
  create path := attempt (IO.FS.writeBinFile path .empty)
  room := pure none
  fill := fill
  sync path := attempt do
    let handle ← IO.FS.Handle.mk path .append
    handle.flush
  rename source target := attempt (IO.FS.rename source target)
  remove := remove
  freshSeed := freshSeed
  listen word := set word
  report := report

/-- The flags. -/
def help : List String :=
  "Options:" :: (Flag.all.map fun flag =>
    "  " ++ (match flag.letter? with | some letter => s!"-{letter}, " | none => "    ") ++
      "--" ++ flag.name)

/-- Prints what became of the command. -/
def conclude (outcome : Outcome) : IO UInt32 := do
  match outcome with
  | .misused .helpWanted => (UsageError.helpWanted.message :: help).forM IO.println
  | .misused error => (("error: " ++ error.message) :: help).forM IO.eprintln
  | .failed _ | .made _ =>
    outcome.success.forM IO.println
    outcome.failure.forM IO.eprintln
    outcome.reason.forM IO.eprintln
  pure outcome.code

end MarketTape.Program

def main (words : List String) : IO UInt32 := do
  let (outcome, _) ← (MarketTape.Command.run words : MarketTape.Program.Session _).run "info"
  MarketTape.Program.conclude outcome
