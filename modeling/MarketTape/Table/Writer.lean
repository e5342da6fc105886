import MarketTape.Table.Line

/-!
# A writer with a buffer

What is written waits in a buffer and goes to the destination only when the next
piece does not fit, or on a flush. The destination may have room for a limited
number of bytes; it takes what fits and then fails. A buffer that could not be
delivered is kept.
-/

namespace MarketTape.Table

structure Writer where
  /-- How many more bytes the destination takes, if there is a limit. -/
  room : Option Nat
  /-- The bytes that reached the destination. -/
  delivered : ByteArray
  /-- The bytes that wait in the buffer. -/
  pending : ByteArray

namespace Writer

/-- How many bytes can wait. -/
def bufferSize : Nat := 8192

/-- A writer to an empty destination. -/
def start (room : Option Nat) : Writer := ⟨room, .empty, .empty⟩

/-- Delivers the buffer, and says whether all of it was taken. -/
def spill (writer : Writer) : Bool × Writer :=
  match writer.room with
  | none => (true, ⟨none, writer.delivered ++ writer.pending, .empty⟩)
  | some room =>
    if writer.pending.size ≤ room then
      (true, ⟨some (room - writer.pending.size), writer.delivered ++ writer.pending, .empty⟩)
    else
      (false, ⟨some 0, writer.delivered ++ writer.pending.extract 0 room, writer.pending⟩)

/-- Adds a piece to the buffer, whether it fits or not. -/
def push (writer : Writer) (piece : Piece) : Writer :=
  match writer with
  | ⟨room, delivered, pending⟩ =>
    match piece with
    | .byte byte => ⟨room, delivered, pending.push byte⟩
    | .doubledQuote => ⟨room, delivered, (pending.push quoteMark).push quoteMark⟩

/-- Writes a piece, delivering the buffer first if the piece does not fit. -/
def put (writer : Writer) (piece : Piece) : Bool × Writer :=
  if writer.pending.size + piece.bytes.length ≤ bufferSize then (true, writer.push piece)
  else
    match writer.spill with
    | (true, writer) => (true, writer.push piece)
    | (false, writer) => (false, writer)

/-- Writes pieces up to the first that fails. -/
def putAll (writer : Writer) : List Piece → Bool × Writer
  | [] => (true, writer)
  | piece :: pieces =>
    match writer.put piece with
    | (true, after) => putAll after pieces
    | (false, after) => (false, after)

end Writer

end MarketTape.Table
