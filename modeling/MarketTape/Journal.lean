import MarketTape.Binary64.Decimal

/-!
# Journal

What a run reports while it works: events with a level, a message and named
values.
-/

namespace MarketTape

/-- How important an event is. -/
inductive Level where
  | debug
  | info
  | warn
deriving DecidableEq, Repr

/-- The word for a level. -/
def Level.word : Level → String
  | .debug => "DEBUG"
  | .info => "INFO"
  | .warn => "WARN"

/-- How little importance a level has. -/
def Level.rank : Level → Nat
  | .warn => 2
  | .info => 3
  | .debug => 4

/-- The largest rank that is shown to someone who asks for a level. -/
def threshold (word : String) : Nat :=
  match word.toLower with
  | "trace" => 5
  | "debug" => 4
  | "info" => 3
  | "warn" => 2
  | "error" => 1
  | _ => 0

/-- A value reported with an event. -/
inductive Detail where
  | text (value : String)
  | number (value : Binary64)
deriving DecidableEq, Repr

/-- Something reported by a run. -/
structure Event where
  level : Level
  message : String
  details : List (String × Detail)
deriving DecidableEq, Repr

/-- A natural number as a reported value. -/
def Detail.count (n : Nat) : Detail := .text (Nat.repr n)

/-- The written form of a reported value. -/
def Detail.write : Detail → String
  | .text value => value
  | .number value => value.text .plain

/-- Whether an event is shown to someone who asks for a level. -/
def Event.isShown (event : Event) (word : String) : Bool := event.level.rank ≤ threshold word

/-- An event as one line. -/
def Event.line (event : Event) : String :=
  String.intercalate " " ([event.level.word, event.message] ++
    event.details.map fun (name, detail) => name ++ "=" ++ detail.write)

end MarketTape
