import MarketTape.Proofs.Record.Grammar
import MarketTape.Proofs.Table.Layout
import MarketTape.Proofs.Tape.RoundTrip
import MarketTape.Proofs.Tape.Stream

/-!
# The line of a fault

The first row that is no record is told with the number of a line. This is the line where
the slice of the row begins, and it counts every line feed in the slices before, whether it
ends a row, belongs to an empty line or stands in a field between quotation marks. The line
feeds ahead of the row in its own slice are left out. There are some behind an empty line,
and also where the row before ends with a carriage return and a line feed, since the carriage
return alone ends it; the line that is told then lies before that of the row.
-/

namespace MarketTape

open Table

namespace FieldError

/-- The line that an error tells. -/
def line : FieldError → Nat
  | unknownKind line _ => line
  | missingFields line _ _ => line
  | invalidField line _ _ => line

end FieldError

theorem Record.IsFault.line_eq {fields : List String} {line : Nat} {error : FieldError}
    (h : IsFault fields line error) : error.line = line := by
  cases h <;> rfl

theorem Text.textBytes_of_ofBytes {bytes : List UInt8} {text : String}
    (h : Text.ofBytes ⟨bytes.toArray⟩ = .ok text) : bytes = textBytes text := by
  rw [Text.ofBytes, String.fromUTF8?] at h
  split at h
  · rename_i found hfound
    split at hfound
    · cases hfound
      cases h
      rfl
    · cases hfound
  · cases h

namespace Tape

open Record

/-! ## Rows and their texts -/

/-- Fields are either texts throughout, or there is a first one that is not. -/
theorem texts_cases (place : Place) (number : Nat) (fields : List (List UInt8)) :
    (∃ given : List String, fields = given.map textBytes) ∨
      ∃ found valid, texts place number fields = .error (.malformed place found valid) := by
  induction fields generalizing number with
  | nil => exact .inl ⟨[], rfl⟩
  | cons field fields ih =>
      rw [texts]
      cases htext : Text.ofBytes ⟨field.toArray⟩ with
      | error valid => exact .inr ⟨number, valid, rfl⟩
      | ok text =>
          obtain ⟨given, hgiven⟩ | ⟨found, valid, hmalformed⟩ := ih (number + 1)
          · refine .inl ⟨text :: given, ?_⟩
            rw [List.map_cons, ← hgiven, ← Text.textBytes_of_ofBytes htext]
          · refine .inr ⟨found, valid, ?_⟩
            simp only [hmalformed]
            rfl

theorem recordOf_cases (row : RawRow) :
    (∃ fields : List String, row.fields = fields.map textBytes) ∨
      ∃ place found valid, recordOf row = .error (.malformed place found valid) := by
  obtain htexts | ⟨found, valid, hmalformed⟩ := texts_cases row.asked 0 row.fields
  · exact .inl htexts
  · refine .inr ⟨row.asked, found, valid, ?_⟩
    rw [recordOf, hmalformed]

theorem isRow_of_recordOf {row : RawRow} {record : Record} (h : recordOf row = .ok record) :
    ∃ fields : List String, row.fields = fields.map textBytes ∧ IsRow fields record := by
  obtain ⟨fields, hfields⟩ | ⟨place, found, valid, hmalformed⟩ := recordOf_cases row
  · rw [recordOf_of_texts hfields] at h
    cases hrecord : ofFields fields row.start.line with
    | error error =>
        rw [hrecord] at h
        cases h
    | ok found =>
        rw [hrecord] at h
        cases h
        exact ⟨fields, hfields, isRow_of_ofFields hrecord⟩
  · rw [hmalformed] at h
    cases h

theorem isFault_of_recordOf {row : RawRow} {error : FieldError}
    (h : recordOf row = .error (.field error)) :
    ∃ fields : List String, row.fields = fields.map textBytes ∧
      IsFault fields row.start.line error := by
  obtain ⟨fields, hfields⟩ | ⟨place, found, valid, hmalformed⟩ := recordOf_cases row
  · rw [recordOf_of_texts hfields] at h
    cases hrecord : ofFields fields row.start.line with
    | error found =>
        rw [hrecord] at h
        cases h
        exact ⟨fields, hfields, ofFields_eq_error_iff.mp hrecord⟩
    | ok found =>
        rw [hrecord] at h
        cases h
  · rw [hmalformed] at h
    cases h

/-- A tape that cannot be read has a first row that is no record. -/
theorem exists_row_of_records {bytes : ByteArray} {error : ReadError}
    (h : records bytes = .error error) :
    ∃ (front : List RawRow) (row : RawRow) (back : List RawRow),
      dataRows bytes.data.toList = front ++ row :: back ∧
        (∀ sound ∈ front, ∃ record, recordOf sound = .ok record) ∧
        recordOf row = .error error := by
  obtain ⟨handed, result, after, hdelivers⟩ := exists_delivers
    (fun (found : Array Record) record => (true, found.push record))
    (dataRows bytes.data.toList) #[]
  rw [records, stream, hdelivers.deliver_eq] at h
  cases hdelivers with
  | complete => cases h
  | refused _ _ _ _ hrefuses => cases hrefuses
  | failed hrows hfront _ hrow =>
      cases h
      exact ⟨_, _, _, hrows, fun _ hsound => exists_record_of_mem hfront hsound, hrow⟩

/-- The rows behind the header are those of the slices behind the first one. -/
theorem dataRows_eq_lined {bytes : List UInt8} {slices : List Slice}
    (h : Laid (startCursor bytes).rest slices) :
    (dataRows bytes).map (fun row => (row.fields, row.start.line)) = (lined 1 slices).tail := by
  obtain ⟨-, -, -, hline⟩ := exists_mark bytes
  have hrows := congrArg List.tail (h.rowsFrom_eq (startCursor bytes).place)
  have hdata := congrArg (List.map fun seen : List (List UInt8) × Place => (seen.1, seen.2.line))
    (dataRows_eq_tail bytes)
  rw [hline] at hrows
  rw [List.map_tail, List.map_map, List.map_map] at hdata
  exact hdata.trans hrows

/-- A slice whose row is a record. -/
def IsSound (slice : Slice) : Prop :=
  ∃ (fields : List String) (record : Record),
    slice.fields = fields.map textBytes ∧ IsRow fields record

/-- A slice whose row is at fault. -/
def IsFaulty (slice : Slice) (line : Nat) (error : FieldError) : Prop :=
  ∃ fields : List String, slice.fields = fields.map textBytes ∧ IsFault fields line error

/-- Slices are sound where their rows are records. -/
theorem isSound_of_lined {line : Nat} {slices : List Slice} {rows : List RawRow}
    (h : lined line slices = rows.map fun row => (row.fields, row.start.line))
    (hrows : ∀ row ∈ rows, ∃ record, recordOf row = .ok record) :
    ∀ slice ∈ slices, IsSound slice := by
  have hfields := congrArg (List.map Prod.fst) h
  rw [map_fst_lined, List.map_map] at hfields
  intro slice hslice
  have hmem : slice.fields ∈ rows.map RawRow.fields := hfields ▸ List.mem_map_of_mem hslice
  obtain ⟨row, hrow, hsame⟩ := List.mem_map.mp hmem
  obtain ⟨record, hrecord⟩ := hrows row hrow
  obtain ⟨texts, htexts, hisRow⟩ := isRow_of_recordOf hrecord
  exact ⟨texts, record, hsame.symm.trans htexts, hisRow⟩

/-- An error tells the line where the slice of the first faulty row begins. That is the line of
the row itself exactly if no line feed lies ahead of the row in its slice. -/
theorem line_of_fault {bytes : ByteArray} {error : FieldError}
    (h : records bytes = .error (.field error)) :
    (∃ mark, bytes.data.toList = mark ++ (startCursor bytes.data.toList).rest ∧
      lineFeed ∉ mark) ∧
    (∃ slices, Laid (startCursor bytes.data.toList).rest slices) ∧
    ∀ slices, Laid (startCursor bytes.data.toList).rest slices →
      ∃ (header : Slice) (front : List Slice) (fault : Slice) (back : List Slice),
        slices = header :: (front ++ fault :: back) ∧ (∀ slice ∈ front, IsSound slice) ∧
        IsFaulty fault error.line error ∧
        error.line = 1 + lineFeeds ((header :: front).flatMap Slice.bytes) ∧
        (error.line = 1 + lineFeeds ((header :: front).flatMap Slice.bytes ++ fault.ahead) ↔
          lineFeed ∉ fault.ahead) := by
  obtain ⟨mark, hmark, hfeeds, -⟩ := exists_mark bytes.data.toList
  refine ⟨⟨mark, hmark, hfeeds⟩, exists_laid _, ?_⟩
  intro slices hslices
  obtain ⟨front, row, back, hrows, hfront, hrow⟩ := exists_row_of_records h
  have hlined := dataRows_eq_lined hslices
  rw [hrows, List.map_append, List.map_cons] at hlined
  cases slices with
  | nil => cases front <;> cases hlined
  | cons header slices =>
      rw [lined, List.tail_cons] at hlined
      obtain ⟨ahead, fault, behind, rfl, hahead, hfields, hline⟩ := exists_of_lined_eq hlined.symm
      obtain ⟨texts, htexts, hfault⟩ := isFault_of_recordOf hrow
      have hnumber : error.line = 1 + lineFeeds ((header :: ahead).flatMap Slice.bytes) := by
        rw [hfault.line_eq, hline, List.flatMap_cons, lineFeeds_append, Nat.add_assoc]
      refine ⟨header, ahead, fault, behind, rfl, ?_, ?_, hnumber, ?_⟩
      · exact isSound_of_lined hahead hfront
      · rw [← hfault.line_eq] at hfault
        exact ⟨texts, hfields.trans htexts, hfault⟩
      · rw [hnumber, lineFeeds_append, ← lineFeeds_eq_zero_iff]
        omega

/-- A tape with line ends of one byte and of two, a line feed in a field, and an empty line.
The row at fault lies at the fifth line. -/
def mixedTape : ByteArray :=
  "KIND\r\nTRADE,1,\"S\nT\",1.5,2\n\r\nORDER,2\r\n".toByteArray

def mixedSlices : List Slice :=
  [{ ahead := [], text := textBytes "KIND", stop := some carriageReturn, phase := .plain },
    { ahead := [lineFeed], text := textBytes "TRADE,1,\"S\nT\",1.5,2", stop := some lineFeed
      phase := .plain },
    { ahead := [carriageReturn, lineFeed], text := textBytes "ORDER,2"
      stop := some carriageReturn, phase := .plain }]

theorem line_of_fault_mixed :
    records mixedTape = .error (.field (.unknownKind 4 "ORDER")) ∧
    Laid (startCursor mixedTape.data.toList).rest mixedSlices ∧
    ∃ (header : Slice) (front : List Slice) (fault : Slice) (back : List Slice),
      mixedSlices = header :: (front ++ fault :: back) ∧ (∀ slice ∈ front, IsSound slice) ∧
      IsFaulty fault 4 (.unknownKind 4 "ORDER") ∧
      4 = 1 + lineFeeds ((header :: front).flatMap Slice.bytes) := by
  have hread : records mixedTape = .error (.field (.unknownKind 4 "ORDER")) := by decide +kernel
  have hbytes : (startCursor mixedTape.data.toList).rest =
      mixedSlices.flatMap Slice.bytes ++ [lineFeed] := by decide +kernel
  have hlaid : Laid (startCursor mixedTape.data.toList).rest mixedSlices := by
    rw [hbytes]
    exact laid_of_ended (by decide) (by decide)
  obtain ⟨-, -, hall⟩ := line_of_fault hread
  obtain ⟨header, front, fault, back, hslices, hfront, hfault, hline, -⟩ := hall _ hlaid
  exact ⟨hread, hlaid, header, front, fault, back, hslices, hfront, hfault, hline⟩

/-- A tape whose lines all end with a carriage return and a line feed, with a row at fault
right behind the header. -/
def doubleEndsTape : ByteArray :=
  ("TYPE,TIMESTAMP_NS,SYMBOL,PRICE,SIZE,BID_PRICE,BID_SIZE,ASK_PRICE,ASK_SIZE\r\n" ++
    "TRADE,1,S,1,x\r\n").toByteArray

def doubleEndsHeader : Slice where
  ahead := []
  text := textBytes "TYPE,TIMESTAMP_NS,SYMBOL,PRICE,SIZE,BID_PRICE,BID_SIZE,ASK_PRICE,ASK_SIZE"
  stop := some carriageReturn
  phase := .plain

def doubleEndsFault : Slice where
  ahead := [lineFeed]
  text := textBytes "TRADE,1,S,1,x"
  stop := some carriageReturn
  phase := .plain

/-- The row at fault lies at the second line, but the first one is told. -/
theorem line_of_fault_low :
    records doubleEndsTape = .error (.field (.invalidField 1 .size "x")) ∧
    Laid (startCursor doubleEndsTape.data.toList).rest [doubleEndsHeader, doubleEndsFault] ∧
    IsFaulty doubleEndsFault 1 (.invalidField 1 .size "x") ∧
    (FieldError.invalidField 1 .size "x").line ≠
      1 + lineFeeds (doubleEndsHeader.bytes ++ doubleEndsFault.ahead) := by
  have hbytes : (startCursor doubleEndsTape.data.toList).rest =
      [doubleEndsHeader, doubleEndsFault].flatMap Slice.bytes ++ [lineFeed] := by decide +kernel
  have hfields : ["TRADE", "1", "S", "1", "x"].map textBytes = doubleEndsFault.fields := by
    decide +kernel
  refine ⟨by decide +kernel, ?_, ?_, by decide +kernel⟩
  · rw [hbytes]
    exact laid_of_ended (by decide) (by decide)
  · exact ⟨_, hfields.symm, ofFields_eq_error_iff.mp (by decide +kernel)⟩

end Tape

end MarketTape
