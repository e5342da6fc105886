import MarketTape.Proofs.Numeral.Grammar
import MarketTape.Record.Fields
import Mathlib.Data.List.Basic

/-!
# The grammar of records

Which rows of fields are a record, and what is wrong with all others. A row is judged by
the columns of its kind alone: what stands in the other columns, or behind the last one,
has no say. Of several faults the first one is reported, in the order kind, number of
fields, columns from left to right, with the field as it stands.
-/

namespace MarketTape

open Numeral

-- Powers are the core library's, whichever others are in scope.
attribute [local instance (2000)] instPowNat

/-! ## The rules -/

/-- A field holds a value: a text for it, with any blanks around that text. -/
def Record.Holds {α : Type} (spells : List Char → α → Prop) (field : String) (value : α) : Prop :=
  ∃ body, Text.Pads field.toList body ∧ spells body value

/-- The columns of a kind, from left to right. -/
def Kind.columns : Kind → List Column
  | .quote => [.type, .timestamp, .symbol, .bidPrice, .bidSize, .askPrice, .askSize]
  | .trade => [.type, .timestamp, .symbol, .price, .size]

/-- Whether a field may stand in a column. A symbol may be any text, and so may a kind, which
is judged before the columns are. -/
def Column.Admits : Column → String → Prop
  | .type, _ => True
  | .symbol, _ => True
  | .timestamp, field => ∃ n : UInt64, Record.Holds (IsUnsigned 64) field n.toNat
  | .price, field => ∃ x, Record.Holds IsBinary64 field x
  | .bidPrice, field => ∃ x, Record.Holds IsBinary64 field x
  | .askPrice, field => ∃ x, Record.Holds IsBinary64 field x
  | .size, field => ∃ n : UInt32, Record.Holds (IsUnsigned 32) field n.toNat
  | .bidSize, field => ∃ n : UInt32, Record.Holds (IsUnsigned 32) field n.toNat
  | .askSize, field => ∃ n : UInt32, Record.Holds (IsUnsigned 32) field n.toNat

namespace Record

/-- The rows that are a record. Fields that no rule looks at may be any text, and any fields
may follow. -/
inductive IsRow : List String → Record → Prop
  | quote {time symbol price size bidPrice bidSize askPrice askSize : String}
      {more : List String} {q : Quote}
      (htime : Holds (IsUnsigned 64) time q.timestamp.toNat) (hsymbol : q.symbol = symbol)
      (hbidPrice : Holds IsBinary64 bidPrice q.bidPrice)
      (hbidSize : Holds (IsUnsigned 32) bidSize q.bidSize.toNat)
      (haskPrice : Holds IsBinary64 askPrice q.askPrice)
      (haskSize : Holds (IsUnsigned 32) askSize q.askSize.toNat) :
      IsRow ("QUOTE" :: time :: symbol :: price :: size :: bidPrice :: bidSize :: askPrice ::
        askSize :: more) (.quote q)
  | trade {time symbol price size : String} {more : List String} {t : Trade}
      (htime : Holds (IsUnsigned 64) time t.timestamp.toNat) (hsymbol : t.symbol = symbol)
      (hprice : Holds IsBinary64 price t.price)
      (hsize : Holds (IsUnsigned 32) size t.size.toNat) :
      IsRow ("TRADE" :: time :: symbol :: price :: size :: more) (.trade t)

/-- The first of some columns whose field may not stand there. -/
def FirstFault (fields : List String) (columns : List Column) (column : Column) : Prop :=
  ∃ front back, columns = front ++ column :: back ∧
    (∀ sound ∈ front, sound.Admits (fieldAt fields sound)) ∧
    ¬ column.Admits (fieldAt fields column)

/-- What is wrong with a row that is no record. -/
inductive IsFault (fields : List String) (line : Nat) : FieldError → Prop
  | unknownKind (hkind : ∀ kind : Kind, fieldAt fields .type ≠ kind.tag) :
      IsFault fields line (.unknownKind line (fieldAt fields .type))
  | missingFields {kind : Kind} (hkind : fieldAt fields .type = kind.tag)
      (hcount : fields.length < kind.fieldCount) :
      IsFault fields line (.missingFields line kind.fieldCount fields.length)
  | invalidField {kind : Kind} {column : Column} (hkind : fieldAt fields .type = kind.tag)
      (hcount : kind.fieldCount ≤ fields.length)
      (hcolumn : FirstFault fields kind.columns column) :
      IsFault fields line (.invalidField line column (fieldAt fields column))

variable {fields : List String} {line : Nat} {column sound : Column} {columns : List Column}
variable {α β : Type} {error : FieldError}

/-! ## Single fields -/

theorem kind_eq_some_iff {word : String} {kind : Kind} :
    Kind.ofTag? word = some kind ↔ word = kind.tag := by
  constructor
  · intro h
    rw [Kind.ofTag?] at h
    split at h
    · cases h
      assumption
    · split at h
      · cases h
        assumption
      · cases h
  · rintro rfl
    exact Kind.ofTag?_tag kind

section Number

variable {read : List Char → Option α} (spells : List Char → α → Prop)

theorem number_eq_ok_iff
    (hread : ∀ text value, read (Text.trim text) = some value ↔
      ∃ body, Text.Pads text body ∧ spells body value) {value : α} :
    number read fields line column = .ok value ↔ Holds spells (fieldAt fields column) value := by
  rw [number, Holds, ← hread]
  split
  · rename_i found hfound
    simp [hfound]
  · rename_i hnone
    simp [hnone]

theorem number_eq_error_iff
    (hread : ∀ text value, read (Text.trim text) = some value ↔
      ∃ body, Text.Pads text body ∧ spells body value) :
    number read fields line column = .error error ↔
      (¬ ∃ value, Holds spells (fieldAt fields column) value) ∧
        error = .invalidField line column (fieldAt fields column) := by
  simp only [Holds, ← hread, number]
  split
  · rename_i found hfound
    simp [hfound]
  · rename_i hnone
    simp [hnone, eq_comm]

end Number

/-- Whole numbers of a width are read into a type that holds just these. -/
theorem read_unsigned_iff {width : Nat} {ofNat : Nat → α} {toNat : α → Nat}
    (hof : ∀ n < 2 ^ width, toNat (ofNat n) = n) (hto : ∀ value, ofNat (toNat value) = value)
    (text : List Char) (value : α) :
    (unsigned? width (Text.trim text)).map ofNat = some value ↔
      ∃ body, Text.Pads text body ∧ IsUnsigned width body (toNat value) := by
  rw [← read_trim_iff (fun _ _ => unsigned?_eq_some_iff) fun _ _ h => h.isBlank_eq]
  constructor
  · intro h
    obtain ⟨n, hn, rfl⟩ := Option.map_eq_some_iff.mp h
    rw [hof n (unsigned?_eq_some_iff.mp hn).lt]
    exact hn
  · intro h
    rw [h, Option.map_some, hto]

theorem read_timestamp_iff (text : List Char) (value : UInt64) :
    (unsigned? 64 (Text.trim text)).map UInt64.ofNat = some value ↔
      ∃ body, Text.Pads text body ∧ IsUnsigned 64 body value.toNat :=
  read_unsigned_iff (fun _ hn => UInt64.toNat_ofNat_of_lt hn) (fun _ => UInt64.ofNat_toNat) _ _

theorem read_size_iff (text : List Char) (value : UInt32) :
    (unsigned? 32 (Text.trim text)).map UInt32.ofNat = some value ↔
      ∃ body, Text.Pads text body ∧ IsUnsigned 32 body value.toNat :=
  read_unsigned_iff (fun _ hn => UInt32.toNat_ofNat_of_lt hn) (fun _ => UInt32.ofNat_toNat) _ _

theorem read_price_iff (text : List Char) (value : Binary64) :
    binary64? (Text.trim text) = some value ↔
      ∃ body, Text.Pads text body ∧ IsBinary64 body value :=
  read_trim_iff (fun _ _ => binary64?_eq_some_iff) fun _ _ h => h.isBlank_eq

/-! ## Rows that are a record -/

theorem timestampAt_eq_ok_iff {value : UInt64} :
    timestampAt fields line = .ok value ↔
      Holds (IsUnsigned 64) (fieldAt fields .timestamp) value.toNat :=
  number_eq_ok_iff (fun body (value : UInt64) => IsUnsigned 64 body value.toNat)
    read_timestamp_iff

theorem sizeAt_eq_ok_iff {value : UInt32} :
    sizeAt fields line column = .ok value ↔
      Holds (IsUnsigned 32) (fieldAt fields column) value.toNat :=
  number_eq_ok_iff (fun body (value : UInt32) => IsUnsigned 32 body value.toNat)
    read_size_iff

theorem priceAt_eq_ok_iff {value : Binary64} :
    priceAt fields line column = .ok value ↔ Holds IsBinary64 (fieldAt fields column) value :=
  number_eq_ok_iff IsBinary64 read_price_iff

/-- A step that goes well hands its value on. -/
theorem bind_eq_ok_iff {reading : Except FieldError α} {rest : α → Except FieldError β}
    {result : β} :
    reading >>= rest = .ok result ↔ ∃ value, reading = .ok value ∧ rest value = .ok result := by
  cases reading with
  | error error => exact iff_of_false nofun (by rintro ⟨value, ⟨⟩, _⟩)
  | ok value =>
      constructor
      · intro h
        exact ⟨value, rfl, h⟩
      · rintro ⟨_, ⟨⟩, h⟩
        exact h

/-- Rows of enough fields for a quote. -/
theorem exists_quote_fields (h : Kind.quote.fieldCount ≤ fields.length) :
    ∃ tag time symbol price size bidPrice bidSize askPrice askSize more,
      fields = tag :: time :: symbol :: price :: size :: bidPrice :: bidSize :: askPrice ::
        askSize :: more := by
  match fields, h with
  | _ :: _ :: _ :: _ :: _ :: _ :: _ :: _ :: _ :: _, _ => exact ⟨_, _, _, _, _, _, _, _, _, _, rfl⟩

theorem exists_trade_fields (h : Kind.trade.fieldCount ≤ fields.length) :
    ∃ tag time symbol price size more,
      fields = tag :: time :: symbol :: price :: size :: more := by
  match fields, h with
  | _ :: _ :: _ :: _ :: _ :: _, _ => exact ⟨_, _, _, _, _, _, rfl⟩

/-- Behind the kind and the number of fields only the columns are looked at. -/
theorem ofFields_of_kind {kind : Kind} (hkind : fieldAt fields .type = kind.tag)
    (hcount : kind.fieldCount ≤ fields.length) :
    ofFields fields line = (do
      let timestamp ← timestampAt fields line
      let symbol := fieldAt fields .symbol
      match kind with
      | .quote =>
        let bidPrice ← priceAt fields line .bidPrice
        let bidSize ← sizeAt fields line .bidSize
        let askPrice ← priceAt fields line .askPrice
        let askSize ← sizeAt fields line .askSize
        return .quote { timestamp, symbol, bidPrice, bidSize, askPrice, askSize }
      | .trade =>
        let price ← priceAt fields line .price
        let size ← sizeAt fields line .size
        return .trade { timestamp, symbol, price, size }) := by
  rw [ofFields, hkind, Kind.ofTag?_tag]
  cases kind with
  | quote => exact if_neg (Nat.not_lt.mpr hcount)
  | trade => exact if_neg (Nat.not_lt.mpr hcount)

/-- A record has a kind and enough fields for it. -/
theorem exists_kind_of_ofFields {record : Record} (h : ofFields fields line = .ok record) :
    ∃ kind : Kind, fieldAt fields .type = kind.tag ∧ kind.fieldCount ≤ fields.length := by
  rw [ofFields] at h
  split at h
  · cases h
  · rename_i kind hkind
    split at h
    · cases h
    · rename_i hcount
      exact ⟨kind, kind_eq_some_iff.mp hkind, Nat.not_lt.mp hcount⟩

theorem isRow_of_ofFields {record : Record} (h : ofFields fields line = .ok record) :
    IsRow fields record := by
  obtain ⟨kind, hkind, hcount⟩ := exists_kind_of_ofFields h
  rw [ofFields_of_kind hkind hcount] at h
  obtain ⟨timestamp, htime, h⟩ := bind_eq_ok_iff.mp h
  rw [timestampAt_eq_ok_iff] at htime
  cases kind with
  | quote =>
      obtain ⟨bidPrice, hbidPrice, h⟩ := bind_eq_ok_iff.mp h
      obtain ⟨bidSize, hbidSize, h⟩ := bind_eq_ok_iff.mp h
      obtain ⟨askPrice, haskPrice, h⟩ := bind_eq_ok_iff.mp h
      obtain ⟨askSize, haskSize, h⟩ := bind_eq_ok_iff.mp h
      cases h
      rw [priceAt_eq_ok_iff] at hbidPrice haskPrice
      rw [sizeAt_eq_ok_iff] at hbidSize haskSize
      obtain ⟨tag, time, symbol, _, _, _, _, _, _, more, rfl⟩ := exists_quote_fields hcount
      obtain rfl : tag = "QUOTE" := hkind
      exact .quote htime rfl hbidPrice hbidSize haskPrice haskSize
  | trade =>
      obtain ⟨price, hprice, h⟩ := bind_eq_ok_iff.mp h
      obtain ⟨size, hsize, h⟩ := bind_eq_ok_iff.mp h
      cases h
      rw [priceAt_eq_ok_iff] at hprice
      rw [sizeAt_eq_ok_iff] at hsize
      obtain ⟨tag, time, symbol, _, _, more, rfl⟩ := exists_trade_fields hcount
      obtain rfl : tag = "TRADE" := hkind
      exact .trade htime rfl hprice hsize

theorem ofFields_of_isRow {record : Record} (h : IsRow fields record) :
    ofFields fields line = .ok record := by
  cases h with
  | @quote time symbol price size bidPrice bidSize askPrice askSize more q htime hsymbol hbidPrice
      hbidSize haskPrice haskSize =>
      rw [ofFields_of_kind (show _ = Kind.quote.tag from rfl) (Nat.le_add_left 9 _)]
      refine bind_eq_ok_iff.mpr ⟨q.timestamp, timestampAt_eq_ok_iff.mpr htime, ?_⟩
      refine bind_eq_ok_iff.mpr ⟨q.bidPrice, priceAt_eq_ok_iff.mpr hbidPrice, ?_⟩
      refine bind_eq_ok_iff.mpr ⟨q.bidSize, sizeAt_eq_ok_iff.mpr hbidSize, ?_⟩
      refine bind_eq_ok_iff.mpr ⟨q.askPrice, priceAt_eq_ok_iff.mpr haskPrice, ?_⟩
      refine bind_eq_ok_iff.mpr ⟨q.askSize, sizeAt_eq_ok_iff.mpr haskSize, ?_⟩
      subst hsymbol
      rfl
  | @trade time symbol price size more t htime hsymbol hprice hsize =>
      rw [ofFields_of_kind (show _ = Kind.trade.tag from rfl) (Nat.le_add_left 5 _)]
      refine bind_eq_ok_iff.mpr ⟨t.timestamp, timestampAt_eq_ok_iff.mpr htime, ?_⟩
      refine bind_eq_ok_iff.mpr ⟨t.price, priceAt_eq_ok_iff.mpr hprice, ?_⟩
      refine bind_eq_ok_iff.mpr ⟨t.size, sizeAt_eq_ok_iff.mpr hsize, ?_⟩
      subst hsymbol
      rfl

/-! ## Rows that are none -/

theorem firstFault_cons (h : sound.Admits (fieldAt fields sound)) :
    FirstFault fields (sound :: columns) column ↔ FirstFault fields columns column := by
  constructor
  · rintro ⟨front, back, hcolumns, hfront, hcolumn⟩
    cases front with
    | nil =>
        cases hcolumns
        exact absurd h hcolumn
    | cons first front =>
        cases hcolumns
        exact ⟨front, back, rfl, (List.forall_mem_cons.mp hfront).2, hcolumn⟩
  · rintro ⟨front, back, rfl, hfront, hcolumn⟩
    exact ⟨sound :: front, back, rfl, List.forall_mem_cons.mpr ⟨h, hfront⟩, hcolumn⟩

theorem firstFault_cons_of_not (h : ¬ sound.Admits (fieldAt fields sound)) :
    FirstFault fields (sound :: columns) column ↔ column = sound := by
  constructor
  · rintro ⟨front, back, hcolumns, hfront, -⟩
    cases front with
    | nil =>
        cases hcolumns
        rfl
    | cons first front =>
        cases hcolumns
        exact absurd (hfront sound List.mem_cons_self) h
  · rintro rfl
    exact ⟨[], columns, rfl, by simp, h⟩

/-- A result that fails exactly for the first of some columns with a fault. -/
def FailsFor (fields : List String) (line : Nat) (columns : List Column)
    (result : Except FieldError α) : Prop :=
  ∀ error, result = .error error ↔
    ∃ column, FirstFault fields columns column ∧
      error = .invalidField line column (fieldAt fields column)

theorem failsFor_nil (value : α) : FailsFor fields line [] (.ok value) := by
  intro error
  refine iff_of_false nofun ?_
  rintro ⟨column, ⟨front, back, hcolumns, -⟩, -⟩
  cases front <;> cases hcolumns

theorem FailsFor.pass {result : Except FieldError α} (h : FailsFor fields line columns result)
    (sound : Column) (hsound : ∀ field, sound.Admits field) :
    FailsFor fields line (sound :: columns) result := by
  intro error
  simp only [firstFault_cons (hsound _)]
  exact h error

/-- A column is read before those behind it. -/
theorem FailsFor.bind (column : Column) {reading : Except FieldError α}
    {rest : α → Except FieldError β}
    (hreading : ∀ error, reading = .error error ↔
      ¬ column.Admits (fieldAt fields column) ∧
        error = .invalidField line column (fieldAt fields column))
    (hrest : ∀ value, FailsFor fields line columns (rest value)) :
    FailsFor fields line (column :: columns) (reading >>= rest) := by
  intro error
  cases reading with
  | error fault =>
      obtain ⟨hcolumn, rfl⟩ := (hreading fault).mp rfl
      simp only [firstFault_cons_of_not hcolumn, exists_eq_left]
      exact ⟨fun h => (Except.error.inj h).symm, fun h => congrArg Except.error h.symm⟩
  | ok value =>
      have hcolumn : column.Admits (fieldAt fields column) := by
        by_contra hnot
        cases (hreading _).mpr ⟨hnot, rfl⟩
      simp only [firstFault_cons hcolumn]
      exact hrest value error

theorem timestampAt_eq_error_iff :
    timestampAt fields line = .error error ↔
      ¬ Column.timestamp.Admits (fieldAt fields .timestamp) ∧
        error = .invalidField line .timestamp (fieldAt fields .timestamp) :=
  number_eq_error_iff (fun body (value : UInt64) => IsUnsigned 64 body value.toNat)
    read_timestamp_iff

theorem sizeAt_eq_error_iff :
    sizeAt fields line column = .error error ↔
      (¬ ∃ n : UInt32, Holds (IsUnsigned 32) (fieldAt fields column) n.toNat) ∧
        error = .invalidField line column (fieldAt fields column) :=
  number_eq_error_iff (fun body (value : UInt32) => IsUnsigned 32 body value.toNat)
    read_size_iff

theorem priceAt_eq_error_iff :
    priceAt fields line column = .error error ↔
      (¬ ∃ x, Holds IsBinary64 (fieldAt fields column) x) ∧
        error = .invalidField line column (fieldAt fields column) :=
  number_eq_error_iff IsBinary64 read_price_iff

/-- A row of a kind, with enough fields for it, fails for the first column at fault. -/
theorem failsFor_columns {kind : Kind} (hkind : fieldAt fields .type = kind.tag)
    (hcount : kind.fieldCount ≤ fields.length) :
    FailsFor fields line kind.columns (ofFields fields line) := by
  rw [ofFields_of_kind hkind hcount]
  -- The symbol comes behind the time in a row, but nothing can be wrong with it.
  have htail {result : UInt64 → Except FieldError Record}
      (hresult : ∀ time, FailsFor fields line (kind.columns.drop 3) (result time)) :
      FailsFor fields line kind.columns (timestampAt fields line >>= result) := by
    have htime := FailsFor.bind .timestamp (fun _ => timestampAt_eq_error_iff)
      fun time => (hresult time).pass .symbol fun _ => trivial
    have hall := htime.pass .type fun _ => trivial
    cases kind
    · exact hall
    · exact hall
  apply htail
  intro time
  cases kind with
  | quote =>
      apply FailsFor.bind .bidPrice fun _ => priceAt_eq_error_iff
      intro bidPrice
      apply FailsFor.bind .bidSize fun _ => sizeAt_eq_error_iff
      intro bidSize
      apply FailsFor.bind .askPrice fun _ => priceAt_eq_error_iff
      intro askPrice
      apply FailsFor.bind .askSize fun _ => sizeAt_eq_error_iff
      intro askSize
      exact failsFor_nil _
  | trade =>
      apply FailsFor.bind .price fun _ => priceAt_eq_error_iff
      intro price
      apply FailsFor.bind .size fun _ => sizeAt_eq_error_iff
      intro size
      exact failsFor_nil _

theorem ofFields_of_unknownKind (h : ∀ kind : Kind, fieldAt fields .type ≠ kind.tag) :
    ofFields fields line = .error (.unknownKind line (fieldAt fields .type)) := by
  have hnone : Kind.ofTag? (fieldAt fields .type) = none := by
    apply Option.eq_none_iff_forall_ne_some.mpr
    intro kind hkind
    exact h kind (kind_eq_some_iff.mp hkind)
  rw [ofFields, hnone]

theorem ofFields_of_missingFields {kind : Kind} (hkind : fieldAt fields .type = kind.tag)
    (hcount : fields.length < kind.fieldCount) :
    ofFields fields line = .error (.missingFields line kind.fieldCount fields.length) := by
  rw [ofFields, hkind, Kind.ofTag?_tag]
  simp only [if_pos hcount]

/-- A row that is no record is refused for the first thing that is wrong with it. -/
theorem ofFields_eq_error_iff :
    ofFields fields line = .error error ↔ IsFault fields line error := by
  constructor
  · intro h
    by_cases hknown : ∃ kind : Kind, fieldAt fields .type = kind.tag
    · obtain ⟨kind, hkind⟩ := hknown
      by_cases hcount : fields.length < kind.fieldCount
      · rw [ofFields_of_missingFields hkind hcount] at h
        cases h
        exact .missingFields hkind hcount
      · rw [Nat.not_lt] at hcount
        obtain ⟨column, hcolumn, rfl⟩ := (failsFor_columns hkind hcount error).mp h
        exact .invalidField hkind hcount hcolumn
    · rw [not_exists] at hknown
      rw [ofFields_of_unknownKind hknown] at h
      cases h
      exact .unknownKind hknown
  · intro h
    cases h with
    | unknownKind hkind => exact ofFields_of_unknownKind hkind
    | missingFields hkind hcount => exact ofFields_of_missingFields hkind hcount
    | invalidField hkind hcount hcolumn =>
        exact (failsFor_columns hkind hcount _).mpr ⟨_, hcolumn, rfl⟩

/-! ## Columns without a say -/

section Other

variable {other : List String}

theorem number_congr (read : List Char → Option α)
    (h : fieldAt other column = fieldAt fields column) :
    number read other line column = number read fields line column := by
  rw [number, number, h]

/-- Rows of one kind that agree in its columns are the same record, or fail alike. -/
theorem ofFields_congr {kind : Kind} (hkind : fieldAt fields .type = kind.tag)
    (hcount : kind.fieldCount ≤ fields.length) (hcount' : kind.fieldCount ≤ other.length)
    (h : ∀ column ∈ kind.columns, fieldAt other column = fieldAt fields column) :
    ofFields other line = ofFields fields line := by
  have htype : fieldAt other .type = fieldAt fields .type := h .type (by cases kind <;> decide)
  have hsymbol : fieldAt other .symbol = fieldAt fields .symbol :=
    h .symbol (by cases kind <;> decide)
  have htime : timestampAt other line = timestampAt fields line :=
    number_congr _ (h .timestamp (by cases kind <;> decide))
  have hprice (column : Column) (hcolumn : column ∈ kind.columns) :
      priceAt other line column = priceAt fields line column := number_congr _ (h column hcolumn)
  have hsize (column : Column) (hcolumn : column ∈ kind.columns) :
      sizeAt other line column = sizeAt fields line column := number_congr _ (h column hcolumn)
  rw [ofFields_of_kind hkind hcount, ofFields_of_kind (htype.trans hkind) hcount', htime, hsymbol]
  cases kind with
  | quote =>
      rw [hprice .bidPrice (by decide), hprice .askPrice (by decide),
        hsize .bidSize (by decide), hsize .askSize (by decide)]
  | trade =>
      rw [hprice .price (by decide), hsize .size (by decide)]

end Other

/-- A trade stays what it is when its row is cut behind the columns of a trade. -/
theorem ofFields_take (htrade : fieldAt fields .type = Kind.trade.tag) :
    ofFields (fields.take Kind.trade.fieldCount) line = ofFields fields line := by
  by_cases hcount : Kind.trade.fieldCount ≤ fields.length
  · have hcount' : Kind.trade.fieldCount ≤ (fields.take Kind.trade.fieldCount).length := by
      rw [List.length_take]
      omega
    apply ofFields_congr htrade hcount hcount'
    obtain ⟨tag, time, symbol, price, size, more, rfl⟩ := exists_trade_fields hcount
    intro column hcolumn
    simp only [Kind.columns, List.mem_cons, List.not_mem_nil, or_false] at hcolumn
    obtain rfl | rfl | rfl | rfl | rfl := hcolumn <;> rfl
  · rw [List.take_of_length_le (by omega)]

/-- Rows are read by the grammar of records: what is read is what the row is, what is refused
is refused for its first fault, and the columns of other kinds, with all fields behind the
last column, have no say in either. -/
theorem ofFields_exact (fields : List String) (line : Nat) :
    (∀ record, ofFields fields line = .ok record ↔ IsRow fields record) ∧
    (∀ error, ofFields fields line = .error error ↔ IsFault fields line error) ∧
    (∀ (kind : Kind) (other : List String), fieldAt fields .type = kind.tag →
      kind.fieldCount ≤ fields.length → kind.fieldCount ≤ other.length →
      (∀ column ∈ kind.columns, fieldAt other column = fieldAt fields column) →
        ofFields other line = ofFields fields line) ∧
    (fieldAt fields .type = Kind.trade.tag →
      ofFields (fields.take Kind.trade.fieldCount) line = ofFields fields line) := by
  refine ⟨?_, ?_, ?_, ?_⟩
  · intro record
    exact ⟨isRow_of_ofFields, ofFields_of_isRow⟩
  · intro error
    exact ofFields_eq_error_iff
  · intro kind other hkind hcount hcount' h
    exact ofFields_congr hkind hcount hcount' h
  · intro htrade
    exact ofFields_take htrade

/-- A quote whose numbers stand between blanks, with text in the columns of a trade and a
field too many. -/
def looseQuote : List String :=
  ["QUOTE", " +007\t", " A", "n/a", "", "1e2", "\u00a05", "-iNf", "4294967295 ", "more"]

/-- The same quote without what is not looked at. -/
def plainQuote : List String :=
  ["QUOTE", " +007\t", " A", "", "", "1e2", "\u00a05", "-iNf", "4294967295 "]

/-- A trade whose price is no number, in front of more fields than a trade needs. -/
def longTrade : List String := ["TRADE", "7", "A", " 1e ", "x", "", "", "", ""]

theorem ofFields_exact_loose :
    (fieldAt looseQuote .type = Kind.quote.tag ∧ Kind.quote.fieldCount ≤ looseQuote.length ∧
      Kind.quote.fieldCount ≤ plainQuote.length ∧
      (∀ column ∈ Kind.quote.columns, fieldAt plainQuote column = fieldAt looseQuote column) ∧
      ofFields plainQuote 2 = ofFields looseQuote 2) ∧
    IsRow looseQuote (.quote
      { timestamp := 7, symbol := " A", bidPrice := 100, bidSize := 5
        askPrice := .infinity true, askSize := 4294967295 }) ∧
    fieldAt longTrade .type = Kind.trade.tag ∧
    ofFields (longTrade.take 5) 3 = ofFields longTrade 3 ∧
    IsFault longTrade 3 (.invalidField 3 .price " 1e ") := by
  obtain ⟨hrow, -, hcolumns, -⟩ := ofFields_exact looseQuote 2
  obtain ⟨-, hfault, -, htake⟩ := ofFields_exact longTrade 3
  refine ⟨⟨by decide, by decide, by decide, by decide, ?_⟩, ?_, by decide, ?_, ?_⟩
  · exact hcolumns .quote plainQuote (by decide) (by decide) (by decide) (by decide)
  · exact (hrow _).mp (by decide +kernel)
  · exact htake (by decide)
  · exact (hfault _).mp (by decide +kernel)

end Record

end MarketTape
