import MarketTape.Price

/-!
# The walk of the mid price

The mid price wanders in steps between two bounds, kept to whole cents, and the
book quotes a bid and an ask half a spread below and above it, each rounded to
cents on its own. A spread is only usable if at every mid of the walk the two
sides stay apart: below about a cent both round to the same price.
-/

namespace MarketTape

/-- The two sides of a book. -/
inductive Side where
  | bid
  | ask
deriving DecidableEq, Repr

/-- The mid price with the bid and the ask around it. -/
structure Book where
  mid : Binary64
  bid : Binary64
  ask : Binary64
deriving DecidableEq, Repr

namespace Book

/-- The price of a side. -/
def price (book : Book) : Side → Binary64
  | .bid => book.bid
  | .ask => book.ask

@[simp] theorem price_bid (book : Book) : book.price .bid = book.bid := rfl

@[simp] theorem price_ask (book : Book) : book.price .ask = book.ask := rfl

/-- How far the ask stands above the bid. -/
def width (book : Book) : Binary64 := book.ask - book.bid

/-- Whether the ask stands above the bid. -/
def isOpen (book : Book) : Bool := decide (0 < book.width)

end Book

/-- A walk: where the mid price is, and the spread it is quoted with. -/
structure Walk where
  mid : Binary64
  spread : Binary64
deriving DecidableEq, Repr

namespace Walk

/-- The lowest mid. -/
def lowest : Binary64 := 90

/-- The highest mid. -/
def highest : Binary64 := 110

/-- The largest drift of one step. -/
def maxDrift : Binary64 := 0.01

/-- A mid held between the bounds and rounded to cents. -/
def hold (mid : Binary64) : Binary64 := Price.toCent (mid.clamp lowest highest)

/-- A walk from a mid, which is held to the bounds first. -/
def start (mid spread : Binary64) : Walk := ⟨hold mid, spread⟩

/-- The walk one drift further. -/
def step (walk : Walk) (drift : Binary64) : Walk := { walk with mid := hold (walk.mid + drift) }

@[simp] theorem spread_step (walk : Walk) (drift : Binary64) :
    (walk.step drift).spread = walk.spread := rfl

/-- The book around the mid. -/
def book (walk : Walk) : Book :=
  let half := walk.spread / 2
  { mid := walk.mid
    bid := Price.toCent (walk.mid - half)
    ask := Price.toCent (walk.mid + half) }

@[simp] theorem mid_book (walk : Walk) : walk.book.mid = walk.mid := rfl

/-- The walk that is taken where nothing else is asked for. -/
def standard : Walk := start 100 0.02

/-- The whole cents from the lowest to the highest mid (`mem_centsOfMids`). -/
def centsOfMids : List Nat := List.range' 9000 2001

/-- Whether a finite positive spread keeps the bid below the ask at every whole
cent that a mid can reach. -/
def staysOpen (spread : Binary64) : Bool :=
  spread.isFinite && decide (0 < spread) &&
    centsOfMids.all fun cents => (start (Price.ofCents cents) spread).book.isOpen

end Walk

end MarketTape
