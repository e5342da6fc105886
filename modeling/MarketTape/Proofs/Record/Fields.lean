import MarketTape.Proofs.Price.Text
import MarketTape.Record.Fields

/-!
# Records that read back

The fields of a record give the record again with its prices settled, and so the
very record if they are on the grid of cents. The symbol may be any text, since it
is neither trimmed nor read.
-/

namespace MarketTape.Record

/-- The prices of a record. -/
def prices : Record → List Binary64
  | .quote q => [q.bidPrice, q.askPrice]
  | .trade t => [t.price]

/-- Every price of the record was rounded to cents. -/
def OnCents (record : Record) : Prop :=
  ∀ price ∈ record.prices, ∃ x : Binary64, x.isNaN = false ∧ price = Price.toCent x

/-- The record with its prices as they are read back. -/
def settled : Record → Record
  | .quote q =>
    .quote { q with
      bidPrice := Price.settled q.bidPrice, askPrice := Price.settled q.askPrice }
  | .trade t => .trade { t with price := Price.settled t.price }

theorem OnCents.settled_eq {record : Record} (h : record.OnCents) : record.settled = record := by
  have hprice {price : Binary64} (hmem : price ∈ record.prices) : Price.settled price = price := by
    obtain ⟨x, hx, rfl⟩ := h price hmem
    exact Price.settled_toCent hx
  cases record with
  | quote q => rw [settled, hprice (by simp [prices]), hprice (by simp [prices])]
  | trade t => rw [settled, hprice (by simp [prices])]

variable {fields : List String} {column : Column}

theorem number_eq_ok {α : Type} {read : List Char → Option α} {value : α}
    (h : read (Text.trim (fieldAt fields column).toList) = some value) (line : Nat) :
    number read fields line column = .ok value := by
  rw [number, h]

theorem trim_repr (n : Nat) : Text.trim (Nat.repr n).toList = (Nat.repr n).toList :=
  Text.trim_eq_self fun _ hc => Numeral.isBlank_of_isDigit (Numeral.isDigit_of_mem_repr hc)

theorem timestampAt_eq_ok {timestamp : UInt64}
    (h : fieldAt fields .timestamp = Nat.repr timestamp.toNat) (line : Nat) :
    timestampAt fields line = .ok timestamp := by
  apply number_eq_ok
  rw [h, trim_repr, Numeral.unsigned?_repr timestamp.toNat_lt, Option.map_some,
    UInt64.ofNat_toNat]

theorem sizeAt_eq_ok {size : UInt32} (h : fieldAt fields column = Row.sizeText size)
    (line : Nat) : sizeAt fields line column = .ok size := by
  apply number_eq_ok
  rw [h, Row.sizeText, trim_repr, Numeral.unsigned?_repr size.toNat_lt, Option.map_some,
    UInt32.ofNat_toNat]

theorem priceAt_eq_ok {price : Binary64} (h : fieldAt fields column = Price.text price)
    (line : Nat) : priceAt fields line column = .ok (Price.settled price) := by
  apply number_eq_ok
  rw [h, Price.binary64?_text]

/-- The fields of a record are read as that record with settled prices. -/
theorem ofFields_fields (record : Record) (line : Nat) :
    ofFields record.row.fields line = .ok record.settled := by
  cases record with
  | quote q =>
      have htime : timestampAt (row (.quote q)).fields line = .ok q.timestamp :=
        timestampAt_eq_ok rfl line
      have hbid : priceAt (row (.quote q)).fields line .bidPrice =
          .ok (Price.settled q.bidPrice) := priceAt_eq_ok rfl line
      have hbidSize : sizeAt (row (.quote q)).fields line .bidSize = .ok q.bidSize :=
        sizeAt_eq_ok rfl line
      have hask : priceAt (row (.quote q)).fields line .askPrice =
          .ok (Price.settled q.askPrice) := priceAt_eq_ok rfl line
      have haskSize : sizeAt (row (.quote q)).fields line .askSize = .ok q.askSize :=
        sizeAt_eq_ok rfl line
      have htag : Kind.ofTag? (fieldAt (row (.quote q)).fields .type) = some .quote :=
        Kind.ofTag?_tag .quote
      rw [ofFields, htag]
      simp only [htime, hbid, hbidSize, hask, haskSize]
      rfl
  | trade t =>
      have htime : timestampAt (row (.trade t)).fields line = .ok t.timestamp :=
        timestampAt_eq_ok rfl line
      have hprice : priceAt (row (.trade t)).fields line .price =
          .ok (Price.settled t.price) := priceAt_eq_ok rfl line
      have hsize : sizeAt (row (.trade t)).fields line .size = .ok t.size :=
        sizeAt_eq_ok rfl line
      have htag : Kind.ofTag? (fieldAt (row (.trade t)).fields .type) = some .trade :=
        Kind.ofTag?_tag .trade
      rw [ofFields, htag]
      simp only [htime, hprice, hsize]
      rfl

end MarketTape.Record
