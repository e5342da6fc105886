import MarketTape.Proofs.Table.Rows

/-!
# How rows lie in a table

The bytes of a table are cut into slices, one for each row: the line ends that are passed
over ahead of the row, the text of the row, and the line end that ends it. A line end of two
bytes is shared out between two slices: its first byte ends one row, and its second byte lies
ahead of the next. A row begins at the line where its slice begins, which is not always the
line where its text does.
-/

namespace MarketTape.Table

/-! ## Texts of rows -/

/-- The phase behind some bytes, as long as none of them ends the row. -/
def Phase.through (phase : Phase) : List UInt8 → Option Phase
  | [] => some phase
  | byte :: bytes =>
    match phase.action byte with
    | .keep next => next.through bytes
    | .drop next => next.through bytes
    | .endField => Phase.fieldStart.through bytes
    | .endRow => none

/-- A row is ended by the byte behind it, or by the end of the table. -/
def Phase.endedBy (phase : Phase) (stop : Option UInt8) : Bool :=
  stop.all fun byte => phase.action byte = .endRow

theorem Phase.action_of_endedBy {phase : Phase} {byte : UInt8}
    (h : phase.endedBy (some byte) = true) : phase.action byte = .endRow := by
  simpa [endedBy] using h

theorem isLineEnd_of_action {phase : Phase} {byte : UInt8} (h : phase.action byte = .endRow) :
    isLineEnd byte = true := by
  have hbare (h : bareAction byte = .endRow) : isLineEnd byte = true := by
    rw [bareAction] at h
    split at h
    · cases h
    · split at h
      · assumption
      · cases h
  cases phase with
  | fieldStart =>
      rw [Phase.action] at h
      split at h
      · cases h
      · exact hbare h
  | plain => exact hbare h
  | quoted =>
      rw [Phase.action] at h
      split at h
      · cases h
      · cases h
  | markSeen =>
      rw [Phase.action] at h
      split at h
      · cases h
      · exact hbare h

/-- Bytes that do not end the row are read through, and what was read of them depends neither
on the place nor on what follows. -/
theorem exists_scan_through {phase next : Phase} {bytes : List UInt8}
    (h : phase.through bytes = some next) (draft : Draft) :
    ∃ behind : Draft, ∀ (place : Place) (tail : List UInt8),
      scan phase draft place (bytes ++ tail) = scan next behind (place.behind bytes) tail := by
  induction bytes generalizing phase draft with
  | nil =>
      cases h
      exact ⟨draft, fun _ _ => rfl⟩
  | cons byte bytes ih =>
      rw [Phase.through] at h
      simp only [List.cons_append, Place.behind_cons]
      cases haction : phase.action byte with
      | keep middle =>
          simp only [haction] at h
          obtain ⟨behind, hscan⟩ := ih h (draft.add byte)
          exact ⟨behind, fun place tail => by rw [scan, haction]; exact hscan _ tail⟩
      | drop middle =>
          simp only [haction] at h
          obtain ⟨behind, hscan⟩ := ih h draft
          exact ⟨behind, fun place tail => by rw [scan, haction]; exact hscan _ tail⟩
      | endField =>
          simp only [haction] at h
          obtain ⟨behind, hscan⟩ := ih h draft.endField
          exact ⟨behind, fun place tail => by rw [scan, haction]; exact hscan _ tail⟩
      | endRow =>
          simp only [haction] at h
          cases h

/-- Bytes are cut behind the text of a row and the byte that ends it, if there is one. -/
structure IsCut (phase : Phase) (bytes text : List UInt8) (next : Phase) (stop : Option UInt8)
    (rest : List UInt8) : Prop where
  bytes_eq : bytes = text ++ (stop.toList ++ rest)
  through : phase.through text = some next
  ends : next.endedBy stop = true
  last : stop = none → rest = []

theorem IsCut.cons {phase middle next : Phase} {bytes text rest : List UInt8}
    {stop : Option UInt8} {byte : UInt8} (h : IsCut middle bytes text next stop rest)
    (hthrough : phase.through (byte :: text) = middle.through text) :
    IsCut phase (byte :: bytes) (byte :: text) next stop rest where
  bytes_eq := by rw [h.bytes_eq, List.cons_append]
  through := hthrough.trans h.through
  ends := h.ends
  last := h.last

/-- All bytes can be cut so. -/
theorem exists_cut (phase : Phase) (bytes : List UInt8) :
    ∃ text next stop rest, IsCut phase bytes text next stop rest := by
  induction bytes generalizing phase with
  | nil => exact ⟨[], phase, none, [], rfl, rfl, rfl, fun _ => rfl⟩
  | cons byte bytes ih =>
      cases haction : phase.action byte with
      | keep middle =>
          obtain ⟨text, next, stop, rest, hcut⟩ := ih middle
          exact ⟨byte :: text, next, stop, rest, hcut.cons (by rw [Phase.through, haction])⟩
      | drop middle =>
          obtain ⟨text, next, stop, rest, hcut⟩ := ih middle
          exact ⟨byte :: text, next, stop, rest, hcut.cons (by rw [Phase.through, haction])⟩
      | endField =>
          obtain ⟨text, next, stop, rest, hcut⟩ := ih .fieldStart
          exact ⟨byte :: text, next, stop, rest, hcut.cons (by rw [Phase.through, haction])⟩
      | endRow =>
          have hended : phase.endedBy (some byte) = true := by simp [Phase.endedBy, haction]
          exact ⟨[], phase, some byte, bytes, rfl, rfl, hended, nofun⟩

/-! ## Slices -/

/-- The bytes of a row with those around it: the line ends ahead of it, its own text, and the
byte that ended it. Only at the end of a table can that byte be missing. -/
structure Slice where
  ahead : List UInt8
  text : List UInt8
  stop : Option UInt8
  /-- The phase behind the text. -/
  phase : Phase
  ahead_lineEnds : ahead.all isLineEnd = true := by decide
  text_visible : text.head?.map isLineEnd = some false := by decide
  text_through : Phase.fieldStart.through text = some phase := by decide
  stop_ends : phase.endedBy stop = true := by decide

namespace Slice

/-- All bytes of a slice. -/
def bytes (slice : Slice) : List UInt8 := slice.ahead ++ (slice.text ++ slice.stop.toList)

/-- The fields of the row. -/
def fields (slice : Slice) : List (List UInt8) :=
  (scan .fieldStart .empty .origin slice.text).1

theorem exists_text_eq_cons (slice : Slice) :
    ∃ byte rest, slice.text = byte :: rest ∧ isLineEnd byte = false := by
  have hvisible := slice.text_visible
  cases htext : slice.text with
  | nil => simp [htext] at hvisible
  | cons byte rest => exact ⟨byte, rest, rfl, by simpa [htext] using hvisible⟩

theorem length_bytes_pos (slice : Slice) : 0 < slice.bytes.length := by
  obtain ⟨byte, rest, htext, -⟩ := slice.exists_text_eq_cons
  simp only [bytes, htext, List.length_append, List.length_cons]
  omega

/-- Reading a slice gives its fields and leaves what stands behind it. -/
theorem scan_text (slice : Slice) {tail : List UInt8} (hlast : slice.stop = none → tail = [])
    (place : Place) :
    scan .fieldStart .empty place (slice.text ++ (slice.stop.toList ++ tail)) =
      (slice.fields, ⟨tail, place.behind (slice.text ++ slice.stop.toList)⟩) := by
  obtain ⟨behind, hscan⟩ := exists_scan_through slice.text_through .empty
  have hfields : slice.fields = behind.finish := by
    have halone := hscan .origin []
    rw [List.append_nil] at halone
    rw [fields, halone, scan]
  rw [hscan, hfields]
  cases hstop : slice.stop with
  | none =>
      rw [hlast hstop]
      simp [scan]
  | some byte =>
      have hend : slice.phase.action byte = .endRow :=
        Phase.action_of_endedBy (hstop ▸ slice.stop_ends)
      simp [scan, hend]

end Slice

/-- Line ends are passed over up to the first other byte. -/
theorem skipLineEnds_append {ahead : List UInt8} (h : ahead.all isLineEnd = true)
    (place : Place) (tail : List UInt8) :
    skipLineEnds place (ahead ++ tail) = skipLineEnds (place.behind ahead) tail := by
  induction ahead generalizing place with
  | nil => rfl
  | cons byte ahead ih =>
      rw [List.all_cons, Bool.and_eq_true] at h
      rw [List.cons_append, skipLineEnds, if_pos h.1, ih h.2]
      rfl

theorem nextRow?_lineEnds {blank : List UInt8} (h : blank.all isLineEnd = true) (place : Place) :
    nextRow? ⟨blank, place⟩ = none := by
  have hskip := skipLineEnds_append h place []
  rw [List.append_nil] at hskip
  rw [nextRow?, hskip]
  rfl

/-- The next row is that of the next slice. -/
theorem nextRow?_slice (slice : Slice) {tail : List UInt8} (hlast : slice.stop = none → tail = [])
    (place : Place) :
    nextRow? ⟨slice.bytes ++ tail, place⟩ =
      some (⟨slice.fields, place, place⟩,
        ⟨tail, { place.behind slice.bytes with row := place.row + 1 }⟩) := by
  have hscan := slice.scan_text hlast (place.behind slice.ahead)
  obtain ⟨byte, rest, htext, hbyte⟩ := slice.exists_text_eq_cons
  rw [nextRow?, Slice.bytes, List.append_assoc, List.append_assoc,
    skipLineEnds_append slice.ahead_lineEnds, Place.behind_append]
  rw [htext, List.cons_append] at hscan ⊢
  rw [skipLineEnds, hbyte]
  simp only [Bool.false_eq_true, if_false, hscan]

/-! ## Tables -/

/-- A table is made of slices one behind the other, and of line ends at its end. -/
inductive Laid : List UInt8 → List Slice → Prop
  | nil {blank : List UInt8} (h : blank.all isLineEnd = true) : Laid blank []
  | cons {slice : Slice} {rest : List UInt8} {slices : List Slice}
      (hlast : slice.stop = none → rest = []) (hrest : Laid rest slices) :
      Laid (slice.bytes ++ rest) (slice :: slices)

/-- Slices whose rows are all ended may stand in front of line ends. -/
theorem laid_of_ended {slices : List Slice} {blank : List UInt8}
    (hended : ∀ slice ∈ slices, slice.stop ≠ none)
    (hblank : blank.all isLineEnd = true) :
    Laid (slices.flatMap Slice.bytes ++ blank) slices := by
  induction slices with
  | nil => exact .nil hblank
  | cons slice slices ih =>
      rw [List.flatMap_cons, List.append_assoc]
      exact .cons (fun hnone => absurd hnone (hended slice List.mem_cons_self))
        (ih fun s hs => hended s (List.mem_cons_of_mem _ hs))

/-- A byte that ends no line begins a slice. -/
theorem exists_slice_cons {byte : UInt8} (h : isLineEnd byte = false) (bytes : List UInt8) :
    ∃ (slice : Slice) (rest : List UInt8), byte :: bytes = slice.bytes ++ rest ∧
      (slice.stop = none → rest = []) := by
  obtain ⟨text, phase, stop, rest, hbytes, htext, hends, hlast⟩ :=
    exists_cut .fieldStart (byte :: bytes)
  have hvisible : text.head?.map isLineEnd = some false := by
    cases text with
    | cons first more =>
        obtain ⟨rfl, -⟩ := List.cons.inj hbytes
        exact congrArg some h
    | nil =>
        -- An empty text would be ended by the byte itself.
        cases stop with
        | none => cases hbytes.trans (hlast rfl)
        | some first =>
            obtain ⟨rfl, -⟩ := List.cons.inj hbytes
            rw [isLineEnd_of_action (Phase.action_of_endedBy hends)] at h
            cases h
  exact ⟨⟨[], text, stop, phase, rfl, hvisible, htext, hends⟩, rest,
    by rw [hbytes, Slice.bytes, List.nil_append, List.append_assoc], hlast⟩

/-- Bytes begin with a slice, unless they are line ends throughout. -/
theorem exists_slice (bytes : List UInt8) :
    bytes.all isLineEnd = true ∨
      ∃ (slice : Slice) (rest : List UInt8), bytes = slice.bytes ++ rest ∧
        (slice.stop = none → rest = []) := by
  induction bytes with
  | nil => exact .inl rfl
  | cons byte bytes ih =>
      by_cases hbyte : isLineEnd byte = true
      · obtain hblank | ⟨slice, rest, rfl, hlast⟩ := ih
        · refine .inl ?_
          rw [List.all_cons, hbyte, hblank]
          rfl
        · refine .inr ⟨{ slice with ahead := byte :: slice.ahead, ahead_lineEnds := ?_ }, rest,
            ?_, hlast⟩
          · rw [List.all_cons, hbyte, slice.ahead_lineEnds]
            rfl
          · simp only [Slice.bytes, List.cons_append]
      · exact .inr (exists_slice_cons (Bool.not_eq_true _ ▸ hbyte) bytes)

/-- Every table can be cut into slices. -/
theorem exists_laid (bytes : List UInt8) : ∃ slices, Laid bytes slices := by
  obtain hblank | ⟨slice, rest, rfl, hlast⟩ := exists_slice bytes
  · exact ⟨[], .nil hblank⟩
  · have hshorter : rest.length < (slice.bytes ++ rest).length := by
      have hpos := slice.length_bytes_pos
      rw [List.length_append]
      omega
    obtain ⟨slices, hslices⟩ := exists_laid rest
    exact ⟨slice :: slices, .cons hlast hslices⟩
termination_by bytes.length

/-! ## Lines -/

/-- The number of line feeds among some bytes. -/
def lineFeeds (bytes : List UInt8) : Nat := bytes.count lineFeed

@[simp] theorem lineFeeds_append (front back : List UInt8) :
    lineFeeds (front ++ back) = lineFeeds front + lineFeeds back := List.count_append

theorem lineFeeds_eq_zero_iff {bytes : List UInt8} : lineFeeds bytes = 0 ↔ lineFeed ∉ bytes :=
  List.count_eq_zero

/-- Lines are counted by their line feeds. -/
theorem line_behind (place : Place) (bytes : List UInt8) :
    (place.behind bytes).line = place.line + lineFeeds bytes := by
  induction bytes generalizing place with
  | nil => rfl
  | cons byte bytes ih =>
      rw [Place.behind_cons, ih, lineFeeds, lineFeeds, List.count_cons, Place.after]
      by_cases hbyte : byte = lineFeed
      · simp only [hbyte, if_true, beq_self_eq_true]
        omega
      · simp [hbyte]

/-- The fields of the rows of slices, each with the line where its slice begins. -/
def lined (line : Nat) : List Slice → List (List (List UInt8) × Nat)
  | [] => []
  | slice :: slices => (slice.fields, line) :: lined (line + lineFeeds slice.bytes) slices

/-- A row lies behind the line feeds of all slices ahead of its own. -/
theorem exists_of_lined_eq {line number : Nat} {slices : List Slice}
    {front back : List (List (List UInt8) × Nat)} {fields : List (List UInt8)}
    (h : lined line slices = front ++ (fields, number) :: back) :
    ∃ (ahead : List Slice) (slice : Slice) (behind : List Slice),
      slices = ahead ++ slice :: behind ∧ lined line ahead = front ∧ slice.fields = fields ∧
        number = line + lineFeeds (ahead.flatMap Slice.bytes) := by
  induction front generalizing line slices with
  | nil =>
      cases slices with
      | nil => cases h
      | cons slice slices =>
          obtain ⟨hslice, -⟩ := List.cons.inj h
          obtain ⟨hfields, hline⟩ := Prod.mk.inj hslice
          exact ⟨[], slice, slices, rfl, rfl, hfields, hline.symm⟩
  | cons first front ih =>
      cases slices with
      | nil => cases h
      | cons slice slices =>
          obtain ⟨hfirst, hrest⟩ := List.cons.inj h
          obtain ⟨ahead, found, behind, rfl, hahead, hfields, hnumber⟩ := ih hrest
          refine ⟨slice :: ahead, found, behind, rfl, ?_, hfields, ?_⟩
          · rw [lined, hahead, hfirst]
          · rw [hnumber, List.flatMap_cons, lineFeeds_append, Nat.add_assoc]

theorem map_fst_lined (line : Nat) (slices : List Slice) :
    (lined line slices).map Prod.fst = slices.map Slice.fields := by
  induction slices generalizing line with
  | nil => rfl
  | cons slice slices ih => rw [lined, List.map_cons, List.map_cons, ih]

/-- The rows of a table are those of its slices, and each begins where its slice begins. -/
theorem Laid.rowsFrom_eq {bytes : List UInt8} {slices : List Slice} (h : Laid bytes slices)
    (place : Place) :
    (rowsFrom ⟨bytes, place⟩).map (fun row => (row.fields, row.start.line)) =
      lined place.line slices := by
  induction h generalizing place with
  | nil hblank =>
      rw [rowsFrom]
      split
      · rfl
      · rename_i hsome
        rw [nextRow?_lineEnds hblank] at hsome
        cases hsome
  | @cons slice rest slices hlast _ ih =>
      have hnext := nextRow?_slice slice hlast place
      rw [rowsFrom]
      split
      · rename_i hnone
        rw [hnext] at hnone
        cases hnone
      · rename_i row behind hsome
        rw [hnext] at hsome
        obtain ⟨rfl, rfl⟩ := Prod.mk.inj (Option.some.inj hsome)
        rw [List.map_cons, ih, lined, line_behind]

/-- Before the first row lies a byte order mark at most, and no line feed. -/
theorem exists_mark (bytes : List UInt8) :
    ∃ mark, bytes = mark ++ (startCursor bytes).rest ∧ lineFeed ∉ mark ∧
      (startCursor bytes).place.line = 1 := by
  unfold startCursor
  split
  · exact ⟨[0xEF, 0xBB, 0xBF], rfl, by decide, rfl⟩
  · exact ⟨[], rfl, by simp, rfl⟩

end MarketTape.Table
