import MarketTape.Proofs.Table.Writer

/-!
# Destinations that fill up

A destination with a capacity ends up with the beginning of all that was written,
as far as it goes. While nothing has failed, the writer is `Intact`: its text was
delivered or still waits. The first delivery that fails leaves it `Cut`, and then
no call changes what the destination holds, since a full destination is offered
the whole buffer again and takes nothing of it.
-/

namespace MarketTape.Table.Writer

/-- All of a text was delivered to a destination with a capacity, or waits. -/
structure Intact (capacity : Nat) (text : List UInt8) (writer : Writer) : Prop where
  room : ∃ room, writer.room = some room ∧ writer.delivered.size + room = capacity
  written : writer.written = text

/-- The destination is full and holds the beginning of a text that is longer than
its capacity. -/
structure Cut (capacity : Nat) (text : List UInt8) (writer : Writer) : Prop where
  room : writer.room = some 0
  delivered : writer.delivered.data.toList = text.take capacity
  lt : capacity < text.length
  waiting : 0 < writer.pending.size

/-- The writer was given a text, whether or not a delivery failed. -/
def Within (capacity : Nat) (text : List UInt8) (writer : Writer) : Prop :=
  writer.Intact capacity text ∨ writer.Cut capacity text

/-- What comes of giving a text to an intact writer: only a failure cuts it. -/
def Reached (capacity : Nat) (text : List UInt8) : Bool × Writer → Prop
  | (true, after) => after.Intact capacity text
  | (false, after) => after.Cut capacity text

variable {capacity : Nat} {text : List UInt8} {writer : Writer}

theorem Reached.within {result : Bool × Writer} (h : Reached capacity text result) :
    result.2.Within capacity text := by
  obtain ⟨ok, after⟩ := result
  cases ok with
  | true => exact .inl h
  | false => exact .inr h

@[simp] theorem delivered_push (writer : Writer) (piece : Piece) :
    (writer.push piece).delivered = writer.delivered := by
  cases piece <;> rfl

theorem size_pending_push (writer : Writer) (piece : Piece) :
    (writer.push piece).pending.size = writer.pending.size + piece.bytes.length := by
  cases piece <;> simp [push, Piece.bytes]

theorem length_written (writer : Writer) :
    writer.written.length = writer.delivered.size + writer.pending.size := by
  rw [written, List.length_append]
  rfl

/-! ## A full destination -/

/-- What is written to a full destination does not change what it holds. -/
theorem Cut.append (h : writer.Cut capacity text) (more : List UInt8) :
    writer.Cut capacity (text ++ more) := by
  constructor
  case room => exact h.room
  case delivered => rw [h.delivered, List.take_append_of_le_length (Nat.le_of_lt h.lt)]
  case lt =>
    rw [List.length_append]
    exact Nat.lt_of_lt_of_le h.lt (Nat.le_add_right _ _)
  case waiting => exact h.waiting

theorem Cut.push (h : writer.Cut capacity text) (piece : Piece) :
    (writer.push piece).Cut capacity (text ++ piece.bytes) := by
  have happend := h.append piece.bytes
  constructor
  case room => rw [room_push, h.room]
  case delivered => rw [delivered_push, happend.delivered]
  case lt => exact happend.lt
  case waiting =>
    rw [size_pending_push]
    exact Nat.add_pos_left h.waiting _

/-- A full destination takes nothing, however often it is offered the buffer. -/
theorem Cut.spill_eq (h : writer.Cut capacity text) : writer.spill = (false, writer) := by
  obtain ⟨room, delivered, pending⟩ := writer
  obtain rfl : room = some 0 := h.room
  have hwaiting : ¬ pending.size ≤ 0 := Nat.not_le.mpr h.waiting
  have hnothing : delivered ++ pending.extract 0 0 = delivered := by
    ext1
    simp
  simp only [spill, hwaiting, if_false, hnothing]

theorem Cut.put (h : writer.Cut capacity text) (piece : Piece) :
    (writer.put piece).2.Cut capacity (text ++ piece.bytes) := by
  rw [Writer.put]
  split
  · exact h.push piece
  · rw [h.spill_eq]
    exact h.append piece.bytes

theorem Cut.putAll (h : writer.Cut capacity text) (pieces : List Piece) :
    (writer.putAll pieces).2.Cut capacity (text ++ bytesOf pieces) := by
  induction pieces generalizing writer text with
  | nil => exact h.append []
  | cons piece pieces ih =>
      have hput := h.put piece
      rw [Writer.putAll, bytesOf_cons, ← List.append_assoc]
      split
      · rename_i after heq
        rw [heq] at hput
        exact ih hput
      · rename_i after heq
        rw [heq] at hput
        exact hput.append (bytesOf pieces)

/-! ## A destination with room -/

theorem Intact.push (h : writer.Intact capacity text) (piece : Piece) :
    (writer.push piece).Intact capacity (text ++ piece.bytes) := by
  obtain ⟨room, hroom, hsum⟩ := h.room
  constructor
  case room => exact ⟨room, by rw [room_push, hroom], by rw [delivered_push, hsum]⟩
  case written => rw [written_push, h.written]

/-- The whole buffer is delivered if all of the text fits. -/
theorem Intact.spill_of_le (h : writer.Intact capacity text) (hle : text.length ≤ capacity) :
    ∃ after, writer.spill = (true, after) ∧ after.Intact capacity text ∧
      after.delivered.data.toList = text := by
  obtain ⟨room, hroom, hsum⟩ := h.room
  have hlength := h.written ▸ length_written writer
  have hfits : writer.pending.size ≤ room := by omega
  have hall : (writer.delivered ++ writer.pending).data.toList = text := by
    rw [← h.written, Writer.written]
    simp
  refine ⟨_, by simp only [spill, hroom, hfits, if_true]; rfl, ⟨⟨_, rfl, ?_⟩, ?_⟩, hall⟩
  · simp only [ByteArray.size_append]
    omega
  · rw [← hall, Writer.written]
    simp

/-- If the text does not fit, its beginning is delivered and the buffer kept. -/
theorem Intact.spill_of_lt (h : writer.Intact capacity text) (hlt : capacity < text.length) :
    ∃ after, writer.spill = (false, after) ∧ after.Cut capacity text := by
  obtain ⟨room, hroom, hsum⟩ := h.room
  have hlength := h.written ▸ length_written writer
  have hfull : ¬ writer.pending.size ≤ room := by omega
  have hdelivered : writer.delivered.data.toList.length = writer.delivered.size := rfl
  refine ⟨_, by simp only [spill, hroom, hfull, if_false]; rfl, ?_⟩
  constructor
  case room => rfl
  case delivered =>
    have hbegin : (writer.delivered ++ writer.pending.extract 0 room).data.toList =
        writer.delivered.data.toList ++ writer.pending.data.toList.take room := by
      simp
    rw [hbegin, ← h.written, Writer.written, List.take_append, hdelivered,
      List.take_of_length_le (show writer.delivered.data.toList.length ≤ capacity by omega),
      show capacity - writer.delivered.size = room by omega]
  case lt => exact hlt
  case waiting =>
    change 0 < writer.pending.size
    omega

theorem Intact.spill (h : writer.Intact capacity text) : Reached capacity text writer.spill := by
  rcases Nat.lt_or_ge capacity text.length with hlt | hle
  · obtain ⟨after, heq, hcut⟩ := h.spill_of_lt hlt
    rw [heq]
    exact hcut
  · obtain ⟨after, heq, hintact, -⟩ := h.spill_of_le hle
    rw [heq]
    exact hintact

theorem Intact.put (h : writer.Intact capacity text) (piece : Piece) :
    Reached capacity (text ++ piece.bytes) (writer.put piece) := by
  rw [Writer.put]
  split
  · exact h.push piece
  · have hspill := h.spill
    split
    · rename_i after heq
      rw [heq] at hspill
      exact Intact.push hspill piece
    · rename_i after heq
      rw [heq] at hspill
      exact Cut.append hspill piece.bytes

theorem Intact.putAll (h : writer.Intact capacity text) (pieces : List Piece) :
    Reached capacity (text ++ bytesOf pieces) (writer.putAll pieces) := by
  induction pieces generalizing writer text with
  | nil =>
      rw [bytesOf_nil, List.append_nil]
      exact h
  | cons piece pieces ih =>
      have hput := h.put piece
      rw [Writer.putAll, bytesOf_cons, ← List.append_assoc]
      split
      · rename_i after heq
        rw [heq] at hput
        exact ih hput
      · rename_i after heq
        rw [heq] at hput
        exact Cut.append hput (bytesOf pieces)

/-! ## Any destination -/

theorem Within.putAll (h : writer.Within capacity text) (pieces : List Piece) :
    (writer.putAll pieces).2.Within capacity (text ++ bytesOf pieces) := by
  cases h with
  | inl h => exact (h.putAll pieces).within
  | inr h => exact .inr (h.putAll pieces)

/-- A delivery succeeds exactly if all of the text fits, and leaves as much of it
at the destination as there is room for. -/
theorem Within.spill (h : writer.Within capacity text) :
    (writer.spill.1 = true ↔ text.length ≤ capacity) ∧ writer.spill.2.Within capacity text ∧
      writer.spill.2.delivered.data.toList = text.take capacity := by
  cases h with
  | inl h =>
      rcases Nat.lt_or_ge capacity text.length with hlt | hle
      · obtain ⟨after, heq, hcut⟩ := h.spill_of_lt hlt
        rw [heq]
        exact ⟨by simpa using hlt, .inr hcut, hcut.delivered⟩
      · obtain ⟨after, heq, hintact, hall⟩ := h.spill_of_le hle
        rw [heq]
        exact ⟨by simpa using hle, .inl hintact, by rw [hall, List.take_of_length_le hle]⟩
  | inr h =>
      rw [h.spill_eq]
      exact ⟨by simpa using h.lt, .inr h, h.delivered⟩

/-- Pieces for which the buffer has space are taken without a delivery. -/
theorem putAll_of_space (pieces : List Piece)
    (h : writer.pending.size + (bytesOf pieces).length ≤ bufferSize) :
    (writer.putAll pieces).1 = true := by
  induction pieces generalizing writer with
  | nil => rfl
  | cons piece pieces ih =>
      rw [bytesOf_cons, List.length_append] at h
      have hput : writer.put piece = (true, writer.push piece) := by
        rw [Writer.put, if_pos (by omega)]
      rw [Writer.putAll, hput]
      apply ih
      rw [size_pending_push]
      omega

theorem intact_start (capacity : Nat) : (start (some capacity)).Intact capacity [] :=
  ⟨⟨capacity, rfl, Nat.zero_add _⟩, rfl⟩

end MarketTape.Table.Writer
