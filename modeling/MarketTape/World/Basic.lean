import MarketTape.Journal

/-!
# The world around a tape

What the making of a tape asks of the world: files and directories under paths, a
fresh seed, and a place to report to.
-/

namespace MarketTape

/-- What became of a file that was to be removed. -/
inductive Removal where
  | removed
  /-- There was none. -/
  | absent
  | refused
deriving DecidableEq, Repr

/-- A world with files, in the steps of a monad. A step that may fail says whether
it succeeded. -/
class World (m : Type → Type) where
  /-- The contents of a file. -/
  read : String → m (Option ByteArray)
  /-- Makes a directory and those above it where they are not there yet. -/
  makeDirectories : String → m Bool
  /-- Makes an empty file, or empties the one that is there. -/
  create : String → m Bool
  /-- How many bytes a new file can take, if there is a limit. -/
  room : m (Option Nat)
  /-- Gives a file its contents; a failure comes with its cause. -/
  fill : String → ByteArray → m (Except String Unit)
  /-- Makes sure that what a file holds is kept. -/
  sync : String → m Bool
  /-- Moves a file to another path, over a file that is there. -/
  rename : String → String → m Bool
  /-- Removes a file. -/
  remove : String → m Removal
  /-- A seed that nobody chose. -/
  freshSeed : m UInt64
  /-- Says which events are worth showing from now on, by the word for a level. -/
  listen : String → m Unit
  /-- Takes note of an event. -/
  report : Event → m Unit

end MarketTape
