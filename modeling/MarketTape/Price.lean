import MarketTape.Binary64.Decimal

/-!
# Prices

A price is a binary64 number kept to whole cents: it is rounded to cents after
every calculation and written with two places.
-/

namespace MarketTape.Price

/-- The places a price is written with. -/
def places : Nat := 2

/-- A price rounded to whole cents, a half cent going away from zero. -/
def toCent (price : Binary64) : Binary64 := (price * 100).round / 100

/-- The nearest whole number of cents, held within 64 bits. A NaN has 0 cents. -/
def cents (price : Binary64) : Int :=
  (price * 100).round.toIntWithin Int64.minValue.toInt Int64.maxValue.toInt

/-- The price of a whole number of cents. -/
def ofCents (cents : Int) : Binary64 := Binary64.ofInt cents / 100

/-- The written form of a price. -/
def text (price : Binary64) : String := price.fixedText places

end MarketTape.Price
