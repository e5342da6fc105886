import MarketTape.Table.Line

/-!
# Reading a table

Lines end with a line feed, a carriage return or both; empty lines are passed
over. A field that begins with a quotation mark is quoted: a doubled mark in it
stands for one, a single mark ends the quotes, and what follows up to the next
comma or line end belongs to the field as it is. A mark further inside a field
has no meaning. The end of the bytes ends any field.

Each row carries the place where its reading began. That place comes before the
empty lines ahead of the row, and after a carriage return that ended the row
before, but not after the line feed behind it.
-/

namespace MarketTape.Table

/-- A place between two bytes: how many bytes lie before it, the number of its
line, and how many rows were read up to it. -/
structure Place where
  byte : Nat
  line : Nat
  row : Nat
deriving DecidableEq, Repr

namespace Place

/-- The place before the first byte. -/
def origin : Place := ⟨0, 1, 0⟩

/-- The place behind one more byte. -/
def after (place : Place) (byte : UInt8) : Place :=
  { place with
    byte := place.byte + 1
    line := if byte = lineFeed then place.line + 1 else place.line }

end Place

/-- The bytes that are not read yet, and the place before them. -/
structure Cursor where
  rest : List UInt8
  place : Place

/-- Where in a row a byte stands. -/
inductive Phase where
  | fieldStart
  | plain
  | quoted
  /-- Behind a mark that may end the quotes. -/
  | markSeen
deriving DecidableEq, Repr

/-- What a byte does. -/
inductive Action where
  /-- It belongs to the field. -/
  | keep (phase : Phase)
  /-- It is left out. -/
  | drop (phase : Phase)
  | endField
  | endRow
deriving DecidableEq, Repr

/-- Whether a byte ends a line. -/
def isLineEnd (byte : UInt8) : Bool := byte = carriageReturn || byte = lineFeed

/-- What a byte does outside quotes. -/
def bareAction (byte : UInt8) : Action :=
  if byte = comma then .endField
  else if isLineEnd byte then .endRow
  else .keep .plain

/-- What a byte does in a phase. -/
def Phase.action (phase : Phase) (byte : UInt8) : Action :=
  match phase with
  | .fieldStart => if byte = quoteMark then .drop .quoted else bareAction byte
  | .plain => bareAction byte
  | .quoted => if byte = quoteMark then .drop .markSeen else .keep .quoted
  | .markSeen => if byte = quoteMark then .keep .quoted else bareAction byte

/-- A row half read: the finished fields and the bytes of the open field, both
with the last one first. -/
structure Draft where
  fields : List (List UInt8)
  field : List UInt8

namespace Draft

/-- A row of which nothing is read. -/
def empty : Draft := ⟨[], []⟩

/-- The draft with one more byte in the open field. -/
def add (draft : Draft) (byte : UInt8) : Draft := { draft with field := byte :: draft.field }

/-- The draft with the open field finished and a new one opened. -/
def endField (draft : Draft) : Draft := ⟨draft.field.reverse :: draft.fields, []⟩

/-- All fields from left to right. -/
def finish (draft : Draft) : List (List UInt8) := draft.endField.fields.reverse

end Draft

/-- Reads to the end of a row, and gives its fields and the place behind it. -/
def scan (phase : Phase) (draft : Draft) (place : Place) :
    List UInt8 → List (List UInt8) × Cursor
  | [] => (draft.finish, ⟨[], place⟩)
  | byte :: rest =>
    match phase.action byte with
    | .keep next => scan next (draft.add byte) (place.after byte) rest
    | .drop next => scan next draft (place.after byte) rest
    | .endField => scan .fieldStart draft.endField (place.after byte) rest
    | .endRow => (draft.finish, ⟨rest, place.after byte⟩)

theorem length_scan_le (phase : Phase) (draft : Draft) (place : Place) (bytes : List UInt8) :
    (scan phase draft place bytes).2.rest.length ≤ bytes.length := by
  induction bytes generalizing phase draft place with
  | nil => simp [scan]
  | cons byte rest ih =>
    rw [scan]
    split
    · exact Nat.le_succ_of_le (ih ..)
    · exact Nat.le_succ_of_le (ih ..)
    · exact Nat.le_succ_of_le (ih ..)
    · simp

theorem length_scan_fieldStart_lt (draft : Draft) (place : Place) (byte : UInt8)
    (rest : List UInt8) :
    (scan .fieldStart draft place (byte :: rest)).2.rest.length < (byte :: rest).length := by
  rw [scan]
  split <;> simp only [List.length_cons] <;> apply Nat.lt_succ_of_le
  · exact length_scan_le ..
  · exact length_scan_le ..
  · exact length_scan_le ..
  · exact Nat.le_refl _

/-- Passes over the ends of empty lines. -/
def skipLineEnds (place : Place) : List UInt8 → Cursor
  | [] => ⟨[], place⟩
  | byte :: rest =>
    if isLineEnd byte then skipLineEnds (place.after byte) rest else ⟨byte :: rest, place⟩

theorem length_skipLineEnds_le (place : Place) (bytes : List UInt8) :
    (skipLineEnds place bytes).rest.length ≤ bytes.length := by
  induction bytes generalizing place with
  | nil => simp [skipLineEnds]
  | cons byte rest ih =>
    rw [skipLineEnds]
    split
    · exact Nat.le_succ_of_le (ih _)
    · exact Nat.le_refl _

/-- The fields of a row, the place where its reading began, and the place where
the reader stood when the row was asked for. The two differ only for the first
row behind the header, which is read along with it. -/
structure RawRow where
  fields : List (List UInt8)
  start : Place
  asked : Place

/-- The next row, if there is one, and the cursor behind it. -/
def nextRow? (cursor : Cursor) : Option (RawRow × Cursor) :=
  let ahead := skipLineEnds cursor.place cursor.rest
  match ahead.rest with
  | [] => none
  | byte :: rest =>
    let (fields, behind) := scan .fieldStart .empty ahead.place (byte :: rest)
    some (⟨fields, cursor.place, cursor.place⟩,
      { behind with place := { behind.place with row := cursor.place.row + 1 } })

theorem length_nextRow?_lt {cursor behind : Cursor} {row : RawRow}
    (h : nextRow? cursor = some (row, behind)) : behind.rest.length < cursor.rest.length := by
  rw [nextRow?] at h
  have hskip := length_skipLineEnds_le cursor.place cursor.rest
  split at h
  · simp at h
  · rename_i byte rest hrest
    have hscan := length_scan_fieldStart_lt .empty
      (skipLineEnds cursor.place cursor.rest).place byte rest
    simp only [Option.some.injEq, Prod.mk.injEq] at h
    obtain ⟨_, rfl⟩ := h
    rw [hrest] at hskip
    exact Nat.lt_of_lt_of_le hscan hskip

/-- All rows from a cursor on. -/
def rowsFrom (cursor : Cursor) : List RawRow :=
  match _h : nextRow? cursor with
  | none => []
  | some (row, behind) => row :: rowsFrom behind
termination_by cursor.rest.length
decreasing_by exact length_nextRow?_lt _h

/-- The cursor before the first row; a byte order mark is passed over. -/
def startCursor : List UInt8 → Cursor
  | 0xEF :: 0xBB :: 0xBF :: rest => ⟨rest, { Place.origin with byte := 3 }⟩
  | bytes => ⟨bytes, .origin⟩

/-- The rows behind the header, which is passed over whatever it holds. -/
def dataRows (bytes : List UInt8) : List RawRow :=
  match nextRow? (startCursor bytes) with
  | none => []
  | some (_, behind) =>
    match rowsFrom behind with
    | [] => []
    | first :: rows => { first with asked := .origin } :: rows

end MarketTape.Table
