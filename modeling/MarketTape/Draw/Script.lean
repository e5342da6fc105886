import MarketTape.Draw.Basic

/-!
# Scripted draws

A script lays down the values of each kind of draw as a list, which starts over
at its end.
-/

namespace MarketTape

/-- A list read round and round. -/
structure Cycle (α : Type) where
  items : List α
  ahead : List α

namespace Cycle

/-- A cycle that stands at the beginning. -/
def ofList (items : List α) : Cycle α := ⟨items, items⟩

/-- The next item; an empty cycle gives the default. -/
def next [Inhabited α] (cycle : Cycle α) : α × Cycle α :=
  match cycle.ahead with
  | item :: ahead => (item, { cycle with ahead })
  | [] =>
    match cycle.items with
    | item :: ahead => (item, { cycle with ahead })
    | [] => (default, cycle)

end Cycle

/-- The values laid down for each kind of draw. -/
structure Script where
  timeSteps : Cycle UInt64
  drifts : Cycle Binary64
  classifiers : Cycle Binary64
  sides : Cycle Binary64
  bookSizes : Cycle UInt32
  tradeSizes : Cycle UInt32

instance : DrawSource Script where
  timeStep script :=
    let (value, timeSteps) := script.timeSteps.next
    (value, { script with timeSteps })
  drift script :=
    let (value, drifts) := script.drifts.next
    (value, { script with drifts })
  classifier script :=
    let (value, classifiers) := script.classifiers.next
    (value, { script with classifiers })
  side script :=
    let (value, sides) := script.sides.next
    (value, { script with sides })
  bookSize script :=
    let (value, bookSizes) := script.bookSizes.next
    (value, { script with bookSizes })
  tradeSize script :=
    let (value, tradeSizes) := script.tradeSizes.next
    (value, { script with tradeSizes })

end MarketTape
