import MarketTape.Proofs.Table.Rows
import MarketTape.Table.Writer

/-!
# What a writer keeps

The bytes that were delivered and those that wait in the buffer make up all that
was written. Where the destination has no limit, nothing fails.
-/

namespace MarketTape.Table.Writer

/-- All bytes written so far, delivered or waiting. -/
def written (writer : Writer) : List UInt8 :=
  writer.delivered.data.toList ++ writer.pending.data.toList

@[simp] theorem room_push (writer : Writer) (piece : Piece) :
    (writer.push piece).room = writer.room := by
  cases piece <;> rfl

@[simp] theorem written_push (writer : Writer) (piece : Piece) :
    (writer.push piece).written = writer.written ++ piece.bytes := by
  cases piece <;> simp [push, written, Piece.bytes]

variable {writer : Writer}

/-- A destination without a limit takes the whole buffer. -/
theorem spill_of_unlimited (h : writer.room = none) :
    writer.spill = (true, ⟨none, writer.delivered ++ writer.pending, .empty⟩) := by
  rw [spill, h]

theorem put_of_unlimited (h : writer.room = none) (piece : Piece) :
    ∃ after, writer.put piece = (true, after) ∧ after.room = none ∧
      after.written = writer.written ++ piece.bytes := by
  rw [put]
  split
  · exact ⟨_, rfl, by rw [room_push, h], written_push writer piece⟩
  · rw [spill_of_unlimited h]
    refine ⟨_, rfl, by rw [room_push], ?_⟩
    rw [written_push]
    simp [written]

theorem putAll_of_unlimited (h : writer.room = none) (pieces : List Piece) :
    ∃ after, writer.putAll pieces = (true, after) ∧ after.room = none ∧
      after.written = writer.written ++ bytesOf pieces := by
  induction pieces generalizing writer with
  | nil => exact ⟨writer, rfl, h, (List.append_nil _).symm⟩
  | cons piece pieces ih =>
      obtain ⟨middle, hput, hroom, hwritten⟩ := put_of_unlimited h piece
      obtain ⟨after, hrest, hroom', hwritten'⟩ := ih hroom
      refine ⟨after, ?_, hroom', ?_⟩
      · rw [putAll, hput]
        exact hrest
      · rw [hwritten', hwritten, bytesOf_cons, List.append_assoc]

end MarketTape.Table.Writer
