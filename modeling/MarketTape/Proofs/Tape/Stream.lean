import Mathlib.Data.List.Basic
import MarketTape.Tape

/-!
# Handing over a tape

The receiver of a tape is handed its records one by one. That ends in one of three ways:
with the last row, with a record that the receiver refuses, or with a row that is no
record. Whichever comes first decides what is told, and of what lies behind it neither the
receiver nor the result knows anything. The receiver may change with every record, and so
the induction keeps its state in sight.
-/

namespace MarketTape.Tape

open Table

variable {α : Type} {receive : α → Record → Bool × α} {state middle after : α}
variable {taken handed : List Record} {record : Record} {rows front back : List RawRow}
variable {result : Except ReadError Nat}

/-! ## Receivers -/

/-- A receiver that decides as another one does, and notes down what it is handed. -/
def noting (receive : α → Record → Bool × α) (noted : α × List Record) (record : Record) :
    Bool × α × List Record :=
  ((receive noted.1 record).1, (receive noted.1 record).2, noted.2 ++ [record])

/-- A receiver takes some records in a row and wants more behind each of them. -/
inductive Takes (receive : α → Record → Bool × α) : α → List Record → α → Prop
  | nil (state : α) : Takes receive state [] state
  | cons {state next after : α} {record : Record} {records : List Record}
      (hreceive : receive state record = (true, next)) (hrest : Takes receive next records after) :
      Takes receive state (record :: records) after

/-- A receiver that notes down records takes the same ones. -/
theorem Takes.noting (h : Takes receive state taken after) (noted : List Record) :
    Takes (noting receive) (state, noted) taken (after, noted ++ taken) := by
  induction h generalizing noted with
  | nil state =>
      rw [List.append_nil]
      exact .nil _
  | @cons state next after record records hreceive _ ih =>
      have hrest := ih (noted ++ [record])
      rw [List.append_assoc] at hrest
      exact .cons (by rw [Tape.noting, hreceive]) hrest

/-! ## Rows handed over -/

/-- What comes of handing rows to a receiver: the records that it saw, the result, and its
state at the end. -/
inductive Delivers (receive : α → Record → Bool × α) (rows : List RawRow) (state : α) :
    List Record → Except ReadError Nat → α → Prop
  /-- All rows are records, and the receiver takes them all. -/
  | complete {taken : List Record} {after : α} (hrows : rows.map recordOf = taken.map .ok)
      (htakes : Takes receive state taken after) :
      Delivers receive rows state taken (.ok taken.length) after
  /-- The receiver takes the records of the rows in front, and refuses the next one. -/
  | refused {front back : List RawRow} {row : RawRow} {taken : List Record} {record : Record}
      {middle after : α} (hrows : rows = front ++ row :: back)
      (hfront : front.map recordOf = taken.map .ok) (htakes : Takes receive state taken middle)
      (hrow : recordOf row = .ok record) (hrefuses : receive middle record = (false, after)) :
      Delivers receive rows state (taken ++ [record]) (.ok taken.length) after
  /-- The receiver takes the records of the rows in front, and the next row is no record. -/
  | failed {front back : List RawRow} {row : RawRow} {taken : List Record} {error : ReadError}
      {after : α} (hrows : rows = front ++ row :: back)
      (hfront : front.map recordOf = taken.map .ok) (htakes : Takes receive state taken after)
      (hrow : recordOf row = .error error) :
      Delivers receive rows state taken (.error error) after

/-- Records that are taken are handed over and counted, and what follows goes on from there. -/
theorem deliver_append (hfront : front.map recordOf = taken.map .ok)
    (htakes : Takes receive state taken middle) (accepted : Nat) (back : List RawRow) :
    deliver receive accepted (front ++ back) state =
      deliver receive (accepted + taken.length) back middle := by
  induction htakes generalizing front accepted with
  | nil =>
      obtain rfl := List.map_eq_nil_iff.mp hfront
      rfl
  | cons hreceive _ ih =>
      cases front with
      | nil => cases hfront
      | cons row front =>
          obtain ⟨hrow, hrest⟩ := List.cons.inj hfront
          rw [List.cons_append, deliver, hrow]
          simp only [hreceive]
          rw [ih hrest, List.length_cons, Nat.add_assoc, Nat.add_comm 1]

theorem Delivers.deliver_eq (h : Delivers receive rows state handed result after) :
    deliver receive 0 rows state = (result, after) := by
  cases h with
  | complete hrows htakes =>
      have hall := deliver_append hrows htakes 0 []
      rwa [List.append_nil, Nat.zero_add, deliver] at hall
  | refused hrows hfront htakes hrow hrefuses =>
      rw [hrows, deliver_append hfront htakes, deliver, hrow]
      simp only [hrefuses, Nat.zero_add]
  | failed hrows hfront htakes hrow =>
      rw [hrows, deliver_append hfront htakes, deliver, hrow]

theorem Delivers.noting (h : Delivers receive rows state handed result after) :
    Delivers (noting receive) rows (state, []) handed result (after, handed) := by
  cases h with
  | complete hrows htakes => exact .complete hrows (htakes.noting [])
  | refused hrows hfront htakes hrow hrefuses =>
      exact .refused hrows hfront (htakes.noting []) hrow (by rw [Tape.noting, hrefuses]; rfl)
  | failed hrows hfront htakes hrow => exact .failed hrows hfront (htakes.noting []) hrow

/-- Rows can be handed to any receiver. -/
theorem exists_delivers (receive : α → Record → Bool × α) (rows : List RawRow) (state : α) :
    ∃ handed result after, Delivers receive rows state handed result after := by
  induction rows generalizing state with
  | nil => exact ⟨_, _, _, .complete (by rfl) (.nil state)⟩
  | cons row rows ih =>
      cases hrow : recordOf row with
      | error error =>
          exact ⟨_, _, _, .failed (List.nil_append _).symm (by rfl) (.nil state) hrow⟩
      | ok record =>
          cases hreceive : receive state record with
          | mk wants next =>
              cases wants with
              | false =>
                  exact ⟨_, _, _,
                    .refused (List.nil_append _).symm (by rfl) (.nil state) hrow hreceive⟩
              | true =>
                  have hmap {front : List RawRow} {taken : List Record}
                      (hfront : front.map recordOf = taken.map .ok) :
                      (row :: front).map recordOf = (record :: taken).map .ok := by
                    rw [List.map_cons, List.map_cons, hrow, hfront]
                  obtain ⟨handed, result, after, h⟩ := ih next
                  cases h with
                  | complete hrows htakes =>
                      exact ⟨_, _, _, .complete (hmap hrows) (.cons hreceive htakes)⟩
                  | refused hrows hfront htakes hrow' hrefuses =>
                      exact ⟨_, _, _, .refused (congrArg (row :: ·) hrows) (hmap hfront)
                        (.cons hreceive htakes) hrow' hrefuses⟩
                  | failed hrows hfront htakes hrow' =>
                      exact ⟨_, _, _, .failed (congrArg (row :: ·) hrows) (hmap hfront)
                        (.cons hreceive htakes) hrow'⟩

/-- What a receiver sees, and what becomes of it, are settled by the rows. -/
theorem deliver_noting_iff :
    deliver (noting receive) 0 rows (state, []) = (result, after, handed) ↔
      Delivers receive rows state handed result after := by
  constructor
  · intro h
    obtain ⟨handed', result', after', hdelivers⟩ := exists_delivers receive rows state
    rw [hdelivers.noting.deliver_eq] at h
    cases h
    exact hdelivers
  · intro h
    exact h.noting.deliver_eq

/-! ## Reading all records -/

/-- The receiver that keeps all records takes whatever comes. -/
theorem takes_push (found : Array Record) (taken : List Record) :
    Takes (fun found record => (true, found.push record)) found taken (found ++ taken) := by
  induction taken generalizing found with
  | nil =>
      have hnone : found ++ ([] : List Record) = found := by simp
      rw [hnone]
      exact .nil found
  | cons record taken ih =>
      have hpush : found ++ (record :: taken) = found.push record ++ taken := by simp
      rw [hpush]
      exact .cons rfl (ih _)

/-- A tape is read to some records exactly if its rows are these records. -/
theorem records_eq_ok_iff {bytes : ByteArray} {given : List Record} :
    records bytes = .ok given ↔
      (dataRows bytes.data.toList).map recordOf = given.map .ok := by
  have hread {taken : List Record}
      (hrows : (dataRows bytes.data.toList).map recordOf = taken.map .ok) :
      records bytes = .ok taken := by
    have hdelivers := Delivers.complete hrows (takes_push #[] taken)
    rw [records, stream, hdelivers.deliver_eq]
    simp [Except.map]
  constructor
  · intro h
    obtain ⟨handed, result, after, hdelivers⟩ := exists_delivers
      (fun (found : Array Record) record => (true, found.push record))
      (dataRows bytes.data.toList) #[]
    cases hdelivers with
    | complete hrows _ =>
        rw [hread hrows] at h
        cases h
        exact hrows
    | refused _ _ _ _ hrefuses => cases hrefuses
    | failed hrows hfront htakes hrow =>
        rw [records, stream, (Delivers.failed hrows hfront htakes hrow).deliver_eq] at h
        cases h
  · exact hread

/-- Where rows are some records, each of them is one. -/
theorem exists_record_of_mem (hrows : rows.map recordOf = taken.map .ok) {row : RawRow}
    (hrow : row ∈ rows) : ∃ record, recordOf row = .ok record := by
  have hmem : recordOf row ∈ taken.map Except.ok := hrows ▸ List.mem_map_of_mem hrow
  obtain ⟨record, -, hrecord⟩ := List.mem_map.mp hmem
  exact ⟨record, hrecord.symm⟩

/-- A tape can be read as a whole exactly if each of its rows can. -/
theorem exists_records_iff {bytes : ByteArray} :
    (∃ given, records bytes = .ok given) ↔
      ∀ row ∈ dataRows bytes.data.toList, ∃ record, recordOf row = .ok record := by
  simp only [records_eq_ok_iff]
  generalize dataRows bytes.data.toList = rows
  constructor
  · rintro ⟨given, hrows⟩ row hrow
    exact exists_record_of_mem hrows hrow
  · intro h
    induction rows with
    | nil => exact ⟨[], rfl⟩
    | cons row rows ih =>
        obtain ⟨record, hrecord⟩ := h row List.mem_cons_self
        obtain ⟨given, hgiven⟩ := ih fun row hrow => h row (List.mem_cons_of_mem _ hrow)
        exact ⟨record :: given, by rw [List.map_cons, List.map_cons, hrecord, hgiven]⟩

/-- The rows of a tape are all rows of the table behind the first one, whatever it holds. -/
theorem dataRows_eq_tail (bytes : List UInt8) :
    (dataRows bytes).map (fun row => (row.fields, row.start)) =
      ((rowsFrom (startCursor bytes)).map fun row => (row.fields, row.start)).tail := by
  rw [dataRows, rowsFrom]
  cases nextRow? (startCursor bytes) with
  | none => rfl
  | some found =>
      obtain ⟨header, behind⟩ := found
      -- The reader asks for the first row behind the header before it has read the header.
      cases hrows : rowsFrom behind with
      | nil => simp only [hrows, List.map_cons, List.map_nil, List.tail_cons]
      | cons first rows => simp only [hrows, List.map_cons, List.tail_cons]

/-- A receiver that refuses a record of a tape which can be read as a whole sees the records
up to this one. -/
theorem delivers_of_records {bytes : ByteArray} {more : List Record}
    (hrecords : records bytes = .ok (taken ++ record :: more))
    (htakes : Takes receive state taken middle)
    (hrefuses : receive middle record = (false, after)) :
    Delivers receive (dataRows bytes.data.toList) state (taken ++ [record]) (.ok taken.length)
      after := by
  have hrows := records_eq_ok_iff.mp hrecords
  rw [List.map_append, List.map_cons] at hrows
  obtain ⟨front, behind, hsplit, hfront, hbehind⟩ := List.map_eq_append_iff.mp hrows
  obtain ⟨row, back, rfl, hrow, -⟩ := List.map_eq_cons_iff.mp hbehind
  exact .refused hsplit hfront htakes hrow hrefuses

/-- A tape is handed over as its rows come: the receiver sees the records of the rows in
order up to the first row that is no record or the first record that it refuses, and the
result tells which of the two came first, or how many records were taken. A tape is read
as a whole exactly if all its rows are records, and these are what any receiver is handed,
up to the one it refuses. -/
theorem stream_faithful (receive : α → Record → Bool × α) (bytes : ByteArray) (state : α) :
    (dataRows bytes.data.toList).map (fun row => (row.fields, row.start)) =
      ((rowsFrom (startCursor bytes.data.toList)).map fun row => (row.fields, row.start)).tail ∧
    (∀ handed result after,
      stream (noting receive) bytes (state, []) = (result, after, handed) ↔
        Delivers receive (dataRows bytes.data.toList) state handed result after) ∧
    (∀ handed result after,
      stream (noting receive) bytes (state, []) = (result, after, handed) →
        stream receive bytes state = (result, after)) ∧
    (∀ given, records bytes = .ok given ↔
      (dataRows bytes.data.toList).map recordOf = given.map .ok) ∧
    ((∃ given, records bytes = .ok given) ↔
      ∀ row ∈ dataRows bytes.data.toList, ∃ record, recordOf row = .ok record) ∧
    ∀ taken record more middle after, records bytes = .ok (taken ++ record :: more) →
      Takes receive state taken middle → receive middle record = (false, after) →
        stream (noting receive) bytes (state, []) =
          (.ok taken.length, after, taken ++ [record]) := by
  refine ⟨dataRows_eq_tail _, fun handed result after => deliver_noting_iff, ?_,
    fun given => records_eq_ok_iff, exists_records_iff, ?_⟩
  · intro handed result after hstream
    exact (deliver_noting_iff.mp hstream).deliver_eq
  · intro taken record more middle after hrecords htakes hrefuses
    exact deliver_noting_iff.mpr (delivers_of_records hrecords htakes hrefuses)

/-- A receiver that wants as many records as its state says and one to refuse. -/
def limit (left : Nat) (_ : Record) : Bool × Nat := (left != 0, left - 1)

def trades : List Record :=
  [.trade { timestamp := 1, symbol := "S", price := 100, size := 5 },
    .trade { timestamp := 2, symbol := "S", price := 101, size := 5 },
    .trade { timestamp := 3, symbol := "S", price := 102, size := 5 }]

/-- The tape of the trades, with the first of them in front of a header. -/
def tradesTape : ByteArray :=
  "TRADE,0,S,1,1\nTRADE,1,S,100,5\nTRADE,2,S,101,5\n\nTRADE,3,S,102,5".toByteArray

/-- The same tape, whose last row is no record. -/
def spoiledTape : ByteArray :=
  "TRADE,0,S,1,1\nTRADE,1,S,100,5\nTRADE,2,S,101,5\n\nTRADE,3,S,102,none".toByteArray

theorem stream_faithful_limit :
    records tradesTape = .ok trades ∧ Takes limit 1 (trades.take 1) 0 ∧
      stream (noting limit) tradesTape (1, []) = (.ok 1, 0, trades.take 2) ∧
      stream limit tradesTape 1 = (.ok 1, 0) ∧
      Delivers limit (dataRows spoiledTape.data.toList) 1 (trades.take 2) (.ok 1) 0 ∧
      ¬ ∃ given, records spoiledTape = .ok given := by
  have hread : records tradesTape = .ok trades := by decide +kernel
  have htakes : Takes limit 1 (trades.take 1) 0 := .cons rfl (.nil 0)
  obtain ⟨-, -, hforget, -, -, hstop⟩ := stream_faithful limit tradesTape 1
  obtain ⟨-, hdelivers, -⟩ := stream_faithful limit spoiledTape 1
  have hseen := hstop (trades.take 1) _ _ 0 0 hread htakes rfl
  refine ⟨hread, htakes, hseen, hforget _ _ _ hseen, ?_, ?_⟩
  · exact (hdelivers _ _ _).mp (by decide +kernel)
  · have hfails : records spoiledTape =
        .error (.field (.invalidField 4 .size "none")) := by decide +kernel
    rintro ⟨given, hgiven⟩
    rw [hfails] at hgiven
    cases hgiven

end MarketTape.Tape
