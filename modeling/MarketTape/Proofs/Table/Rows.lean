import MarketTape.Table.Reader

/-!
# Lines that read back

Reading undoes writing for fields of any bytes. A field is read through with the
open field growing by its bytes, whether it stands between quotation marks or
not; the comma or the line feed behind it then ends it. A line whose first field
is not empty is not taken for an empty line.
-/

namespace MarketTape.Table

/-- The bytes of pieces. -/
def bytesOf (pieces : List Piece) : List UInt8 := pieces.flatMap Piece.bytes

@[simp] theorem bytesOf_nil : bytesOf [] = [] := rfl

@[simp] theorem bytesOf_cons (piece : Piece) (pieces : List Piece) :
    bytesOf (piece :: pieces) = piece.bytes ++ bytesOf pieces := rfl

@[simp] theorem bytesOf_append (front back : List Piece) :
    bytesOf (front ++ back) = bytesOf front ++ bytesOf back := List.flatMap_append

@[simp] theorem bytesOf_map_byte (bytes : List UInt8) : bytesOf (bytes.map .byte) = bytes := by
  induction bytes with
  | nil => rfl
  | cons byte bytes ih => rw [List.map_cons, bytesOf_cons, ih]; rfl

/-- The place behind some bytes. -/
def Place.behind (place : Place) (bytes : List UInt8) : Place := bytes.foldl Place.after place

@[simp] theorem Place.behind_nil (place : Place) : place.behind [] = place := rfl

@[simp] theorem Place.behind_cons (place : Place) (byte : UInt8) (bytes : List UInt8) :
    place.behind (byte :: bytes) = (place.after byte).behind bytes := rfl

@[simp] theorem Place.behind_append (place : Place) (front back : List UInt8) :
    place.behind (front ++ back) = (place.behind front).behind back := List.foldl_append

/-! ## Fields -/

/-- A byte that ends neither a field nor a row, and is no quotation mark. -/
def IsPlain (byte : UInt8) : Prop :=
  byte ≠ comma ∧ byte ≠ quoteMark ∧ byte ≠ carriageReturn ∧ byte ≠ lineFeed

theorem isPlain_of_mem {field : List UInt8} (h : needsQuotes field = false) :
    ∀ byte ∈ field, IsPlain byte := by
  intro byte hmem
  have hbyte := List.any_eq_false.mp h byte hmem
  simpa [IsPlain, and_assoc] using hbyte

theorem IsPlain.bareAction {byte : UInt8} (h : IsPlain byte) : bareAction byte = .keep .plain := by
  simp [Table.bareAction, isLineEnd, h.1, h.2.2.1, h.2.2.2]

/-- Plain bytes are kept as they are. -/
theorem scan_plain {field : List UInt8} (h : ∀ byte ∈ field, IsPlain byte) (draft : Draft)
    (place : Place) (tail : List UInt8) :
    scan .plain draft place (field ++ tail) =
      scan .plain { draft with field := field.reverse ++ draft.field } (place.behind field)
        tail := by
  induction field generalizing draft place with
  | nil => rfl
  | cons byte field ih =>
      rw [List.cons_append, scan, Phase.action, (h byte List.mem_cons_self).bareAction]
      simp only [ih (fun b hb => h b (List.mem_cons_of_mem _ hb))]
      simp [Draft.add]

/-- Bytes between quotation marks are kept, of a doubled mark the second. -/
theorem scan_quoted (field : List UInt8) (draft : Draft) (place : Place) (tail : List UInt8) :
    scan .quoted draft place (bytesOf (field.map quotedPiece) ++ tail) =
      scan .quoted { draft with field := field.reverse ++ draft.field }
        (place.behind (bytesOf (field.map quotedPiece))) tail := by
  induction field generalizing draft place with
  | nil => rfl
  | cons byte field ih =>
      rw [List.map_cons, bytesOf_cons, List.append_assoc]
      by_cases hmark : byte = quoteMark
      · subst hmark
        rw [quotedPiece, if_pos rfl, Piece.bytes]
        simp only [List.cons_append, List.nil_append, scan, Phase.action, if_true, ih]
        simp [Draft.add]
      · rw [quotedPiece, if_neg hmark, Piece.bytes]
        simp only [List.cons_append, List.nil_append, scan, Phase.action, hmark, if_false, ih]
        simp [Draft.add]

/-- Behind a field stands one of the phases in which the next byte may end it. -/
theorem exists_scan_field (field : List UInt8) (fields : List (List UInt8)) (place : Place)
    (tail : List UInt8) :
    ∃ phase, phase ≠ .quoted ∧
      scan .fieldStart ⟨fields, []⟩ place (bytesOf (fieldPieces field) ++ tail) =
        scan phase ⟨fields, field.reverse⟩ (place.behind (bytesOf (fieldPieces field))) tail := by
  rw [fieldPieces]
  by_cases hneeds : needsQuotes field = true
  · refine ⟨.markSeen, by decide, ?_⟩
    rw [if_pos hneeds, bytesOf_cons, bytesOf_append]
    simp only [Piece.bytes, List.cons_append, List.nil_append, List.append_assoc, scan,
      Phase.action, if_true, scan_quoted]
    simp [scan, Phase.action, Piece.bytes]
  · rw [if_neg hneeds, bytesOf_map_byte]
    cases field with
    | nil => exact ⟨.fieldStart, by decide, rfl⟩
    | cons byte field =>
        have hplain := isPlain_of_mem (Bool.not_eq_true _ ▸ hneeds)
        have hfirst := hplain byte List.mem_cons_self
        refine ⟨.plain, by decide, ?_⟩
        rw [List.cons_append, scan, Phase.action, if_neg hfirst.2.1, hfirst.bareAction]
        simp only [scan_plain (fun b hb => hplain b (List.mem_cons_of_mem _ hb))]
        simp [Draft.add]

theorem action_comma {phase : Phase} (h : phase ≠ .quoted) : phase.action comma = .endField := by
  cases phase with
  | quoted => exact absurd rfl h
  | _ => rfl

theorem action_lineFeed {phase : Phase} (h : phase ≠ .quoted) :
    phase.action lineFeed = .endRow := by
  cases phase with
  | quoted => exact absurd rfl h
  | _ => rfl

/-! ## Lines -/

/-- Reading a line gives its fields and leaves what stands behind it. -/
theorem scan_line {line : List (List UInt8)} (hne : line ≠ []) (fields : List (List UInt8))
    (place : Place) (tail : List UInt8) :
    scan .fieldStart ⟨fields, []⟩ place (bytesOf (linePieces line) ++ tail) =
      (fields.reverse ++ line, ⟨tail, place.behind (bytesOf (linePieces line))⟩) := by
  induction line generalizing fields place with
  | nil => exact absurd rfl hne
  | cons field line ih =>
      cases line with
      | nil =>
          obtain ⟨phase, hphase, hscan⟩ :=
            exists_scan_field field fields place (lineFeed :: tail)
          rw [linePieces, bytesOf_append, List.append_assoc]
          refine hscan.trans ?_
          rw [scan, action_lineFeed hphase]
          simp [Draft.finish, Draft.endField, Piece.bytes]
      | cons next line =>
          obtain ⟨phase, hphase, hscan⟩ := exists_scan_field field fields place
            (comma :: (bytesOf (linePieces (next :: line)) ++ tail))
          rw [linePieces, bytesOf_append, bytesOf_cons, List.append_assoc]
          refine hscan.trans ?_
          rw [scan, action_comma hphase]
          simp only [Draft.endField, List.reverse_reverse, ih (List.cons_ne_nil _ _)]
          simp [Piece.bytes]

/-- A line whose first field is not empty begins with no line end. -/
theorem exists_linePieces {first : List UInt8} (hne : first ≠ []) (line : List (List UInt8)) :
    ∃ byte rest, bytesOf (linePieces (first :: line)) = byte :: rest ∧ isLineEnd byte = false := by
  have hfield : ∃ byte rest, bytesOf (fieldPieces first) = byte :: rest ∧
      isLineEnd byte = false := by
    rw [fieldPieces]
    by_cases hneeds : needsQuotes first = true
    · rw [if_pos hneeds]
      exact ⟨quoteMark, _, rfl, rfl⟩
    · rw [if_neg hneeds, bytesOf_map_byte]
      obtain ⟨byte, rest, rfl⟩ := List.exists_cons_of_ne_nil hne
      have hplain := isPlain_of_mem (Bool.not_eq_true _ ▸ hneeds) byte List.mem_cons_self
      exact ⟨byte, rest, rfl, by simp [isLineEnd, hplain.2.2.1, hplain.2.2.2]⟩
  obtain ⟨byte, rest, hbytes, hend⟩ := hfield
  cases line with
  | nil => exact ⟨byte, _, by rw [linePieces, bytesOf_append, hbytes, List.cons_append], hend⟩
  | cons next line =>
      exact ⟨byte, _, by rw [linePieces, bytesOf_append, hbytes, List.cons_append], hend⟩

/-! ## Tables -/

/-- A line that can be told from an empty line. -/
def IsVisible (line : List (List UInt8)) : Prop := ∃ first rest, line = first :: rest ∧ first ≠ []

/-- The next row is the next line, and the rest is left. -/
theorem nextRow?_line {line : List (List UInt8)} (h : IsVisible line) (tail : List UInt8)
    (place : Place) :
    nextRow? ⟨bytesOf (linePieces line) ++ tail, place⟩ =
      some (⟨line, place, place⟩,
        ⟨tail, { place.behind (bytesOf (linePieces line)) with row := place.row + 1 }⟩) := by
  obtain ⟨first, fields, rfl, hne⟩ := h
  obtain ⟨byte, rest, hbytes, hend⟩ := exists_linePieces hne fields
  have hscan := scan_line (List.cons_ne_nil first fields) [] place tail
  rw [hbytes, List.cons_append] at hscan ⊢
  rw [nextRow?, skipLineEnds, hend]
  simp only [Bool.false_eq_true, if_false, Draft.empty, hscan]
  simp

/-- The rows of lines one behind the other are those lines. -/
theorem fields_rowsFrom {lines : List (List (List UInt8))} (h : ∀ line ∈ lines, IsVisible line)
    (place : Place) :
    (rowsFrom ⟨lines.flatMap fun line => bytesOf (linePieces line), place⟩).map RawRow.fields =
      lines := by
  induction lines generalizing place with
  | nil =>
      rw [rowsFrom]
      rfl
  | cons line lines ih =>
      have hnext := nextRow?_line (h line List.mem_cons_self)
        (lines.flatMap fun line => bytesOf (linePieces line)) place
      rw [List.flatMap_cons, rowsFrom]
      split
      · rename_i hnone
        rw [hnext] at hnone
        cases hnone
      · rename_i row behind hsome
        rw [hnext] at hsome
        obtain ⟨rfl, rfl⟩ := Prod.mk.inj (Option.some.inj hsome)
        rw [List.map_cons, ih fun l hl => h l (List.mem_cons_of_mem _ hl)]

/-- The data rows of a table are its lines behind the header. -/
theorem fields_dataRows {header : List (List UInt8)} {lines : List (List (List UInt8))}
    (hheader : IsVisible header) (hmark : (bytesOf (linePieces header)).head? ≠ some 0xEF)
    (h : ∀ line ∈ lines, IsVisible line) :
    (dataRows (bytesOf (linePieces header) ++
        lines.flatMap fun line => bytesOf (linePieces line))).map RawRow.fields = lines := by
  have hstart : startCursor (bytesOf (linePieces header) ++
      lines.flatMap fun line => bytesOf (linePieces line)) =
        ⟨bytesOf (linePieces header) ++ lines.flatMap fun line => bytesOf (linePieces line),
          .origin⟩ := by
    obtain ⟨first, fields, rfl, hne⟩ := hheader
    obtain ⟨byte, rest, hbytes, -⟩ := exists_linePieces hne fields
    rw [hbytes] at hmark ⊢
    rw [List.cons_append, startCursor]
    rintro rest' heq
    exact hmark (congrArg some (List.cons.inj heq).1)
  rw [dataRows, hstart, nextRow?_line hheader]
  have hrows := fields_rowsFrom h
    { Place.origin.behind (bytesOf (linePieces header)) with row := Place.origin.row + 1 }
  simp only
  split
  · rename_i hnil
    rw [hnil] at hrows
    exact hrows
  · rename_i first rows hcons
    rw [hcons] at hrows
    exact hrows

end MarketTape.Table
