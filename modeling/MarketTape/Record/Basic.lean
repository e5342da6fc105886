import MarketTape.Price

/-!
# Records of a tape

A tape is a list of records, one a tick: a quote updates both sides of the book,
a trade prints a price and a size. A `Row` is the flat view of a record, with a
cell for every column; the cells of the other kind of record are empty.
-/

namespace MarketTape

/-- What a record reports. -/
inductive Kind where
  | quote
  | trade
deriving DecidableEq, Repr

namespace Kind

/-- The word that stands for a kind on the tape. -/
def tag : Kind → String
  | .quote => "QUOTE"
  | .trade => "TRADE"

/-- The kind that a word stands for; only the exact word counts. -/
def ofTag? (word : String) : Option Kind :=
  if word = "QUOTE" then some .quote
  else if word = "TRADE" then some .trade
  else none

@[simp] theorem ofTag?_tag (kind : Kind) : ofTag? kind.tag = some kind := by
  cases kind <;> decide

end Kind

/-- The columns of a tape. -/
inductive Column where
  | type
  | timestamp
  | symbol
  | price
  | size
  | bidPrice
  | bidSize
  | askPrice
  | askSize
deriving DecidableEq, Repr

namespace Column

/-- The heading of a column. -/
def heading : Column → String
  | .type => "TYPE"
  | .timestamp => "TIMESTAMP_NS"
  | .symbol => "SYMBOL"
  | .price => "PRICE"
  | .size => "SIZE"
  | .bidPrice => "BID_PRICE"
  | .bidSize => "BID_SIZE"
  | .askPrice => "ASK_PRICE"
  | .askSize => "ASK_SIZE"

/-- All columns from left to right. -/
def all : List Column :=
  [.type, .timestamp, .symbol, .price, .size, .bidPrice, .bidSize, .askPrice, .askSize]

/-- The place of a column, from 0 on the left. -/
def index (column : Column) : Nat := all.idxOf column

end Column

/-- New prices and sizes on both sides of the book. -/
structure Quote where
  /-- Nanoseconds since the epoch. -/
  timestamp : UInt64
  symbol : String
  bidPrice : Binary64
  bidSize : UInt32
  askPrice : Binary64
  askSize : UInt32
deriving DecidableEq, Repr

/-- A trade at the price of one side of the book. -/
structure Trade where
  /-- Nanoseconds since the epoch. -/
  timestamp : UInt64
  symbol : String
  price : Binary64
  size : UInt32
deriving DecidableEq, Repr

/-- One tick of the tape. -/
inductive Record where
  | quote (quote : Quote)
  | trade (trade : Trade)
deriving DecidableEq, Repr

namespace Record

def timestamp : Record → UInt64
  | .quote q => q.timestamp
  | .trade t => t.timestamp

def symbol : Record → String
  | .quote q => q.symbol
  | .trade t => t.symbol

def kind : Record → Kind
  | .quote _ => .quote
  | .trade _ => .trade

end Record

/-- The flat view of a record. -/
structure Row where
  kind : Kind
  timestamp : UInt64
  symbol : String
  price : Option Binary64
  size : Option UInt32
  bidPrice : Option Binary64
  bidSize : Option UInt32
  askPrice : Option Binary64
  askSize : Option UInt32
deriving DecidableEq, Repr

/-- A quote leaves the cells of a trade empty and a trade those of a quote. -/
def Record.row : Record → Row
  | .quote q =>
    { kind := .quote, timestamp := q.timestamp, symbol := q.symbol
      price := none, size := none
      bidPrice := some q.bidPrice, bidSize := some q.bidSize
      askPrice := some q.askPrice, askSize := some q.askSize }
  | .trade t =>
    { kind := .trade, timestamp := t.timestamp, symbol := t.symbol
      price := some t.price, size := some t.size
      bidPrice := none, bidSize := none, askPrice := none, askSize := none }

namespace Row

/-- The text of a cell, nothing if it is empty. -/
def cell (write : α → String) : Option α → String
  | some value => write value
  | none => ""

@[simp] theorem cell_some (write : α → String) (value : α) :
    cell write (some value) = write value := rfl

@[simp] theorem cell_none (write : α → String) : cell write none = "" := rfl

/-- The written form of a size. -/
def sizeText (size : UInt32) : String := Nat.repr size.toNat

/-- The texts of the cells from left to right. -/
def fields (row : Row) : List String :=
  [row.kind.tag, Nat.repr row.timestamp.toNat, row.symbol,
    cell Price.text row.price, cell sizeText row.size,
    cell Price.text row.bidPrice, cell sizeText row.bidSize,
    cell Price.text row.askPrice, cell sizeText row.askSize]

@[simp] theorem length_fields (row : Row) : row.fields.length = Column.all.length := rfl

end Row

end MarketTape
