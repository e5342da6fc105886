import MarketTape.Draw.Generator
import MarketTape.Draw.Script

/-!
# Draws in range

The ranges that a tape counts on. A source is steady as long as it keeps to them,
whatever is drawn in whatever order.
-/

namespace MarketTape

/-! ## The ranges -/

def TimeStepInRange (value : UInt64) : Prop :=
  Generator.minTimeStep ≤ value.toNat ∧ value.toNat ≤ Generator.maxTimeStep

def DriftInRange (value : Binary64) : Prop := -Walk.maxDrift ≤ value ∧ value ≤ Walk.maxDrift

/-- The range of the fractions that a classifier and a side are decided by. -/
def ShareInRange (value : Binary64) : Prop := 0 ≤ value ∧ value < 1

def BookSizeInRange (value : UInt32) : Prop :=
  Generator.lot ∣ value.toNat ∧ Generator.minBookLots * Generator.lot ≤ value.toNat ∧
    value.toNat ≤ Generator.maxBookLots * Generator.lot

def TradeSizeInRange (value : UInt32) : Prop :=
  Generator.minTradeSize ≤ value.toNat ∧ value.toNat ≤ Generator.maxTradeSize

instance (value : UInt64) : Decidable (TimeStepInRange value) :=
  inferInstanceAs (Decidable (_ ∧ _))

instance (value : Binary64) : Decidable (DriftInRange value) := inferInstanceAs (Decidable (_ ∧ _))

instance (value : Binary64) : Decidable (ShareInRange value) := inferInstanceAs (Decidable (_ ∧ _))

instance (value : UInt32) : Decidable (BookSizeInRange value) :=
  inferInstanceAs (Decidable (_ ∧ _ ∧ _))

instance (value : UInt32) : Decidable (TradeSizeInRange value) :=
  inferInstanceAs (Decidable (_ ∧ _))

/-- Every draw from a state with a property is in range, and leaves a state with
the property again. -/
structure Steady [DrawSource σ] (good : σ → Prop) : Prop where
  timeStep : ∀ {source source' : σ} {value : UInt64}, good source →
    DrawSource.timeStep source = (value, source') → TimeStepInRange value ∧ good source'
  drift : ∀ {source source' : σ} {value : Binary64}, good source →
    DrawSource.drift source = (value, source') → DriftInRange value ∧ good source'
  classifier : ∀ {source source' : σ} {value : Binary64}, good source →
    DrawSource.classifier source = (value, source') → ShareInRange value ∧ good source'
  side : ∀ {source source' : σ} {value : Binary64}, good source →
    DrawSource.side source = (value, source') → ShareInRange value ∧ good source'
  bookSize : ∀ {source source' : σ} {value : UInt32}, good source →
    DrawSource.bookSize source = (value, source') → BookSizeInRange value ∧ good source'
  tradeSize : ∀ {source source' : σ} {value : UInt32}, good source →
    DrawSource.tradeSize source = (value, source') → TradeSizeInRange value ∧ good source'

/-- Every drift from a state with a property is a number, and every draw leaves a state
with the property again. -/
structure Numeric [DrawSource σ] (good : σ → Prop) : Prop where
  timeStep : ∀ {source source' : σ} {value : UInt64}, good source →
    DrawSource.timeStep source = (value, source') → good source'
  drift : ∀ {source source' : σ} {value : Binary64}, good source →
    DrawSource.drift source = (value, source') → value.isNaN = false ∧ good source'
  classifier : ∀ {source source' : σ} {value : Binary64}, good source →
    DrawSource.classifier source = (value, source') → good source'
  side : ∀ {source source' : σ} {value : Binary64}, good source →
    DrawSource.side source = (value, source') → good source'
  bookSize : ∀ {source source' : σ} {value : UInt32}, good source →
    DrawSource.bookSize source = (value, source') → good source'
  tradeSize : ∀ {source source' : σ} {value : UInt32}, good source →
    DrawSource.tradeSize source = (value, source') → good source'

/-- Every time step from a state with a property is in range, and every draw leaves a state
with the property again. -/
structure Timed [DrawSource σ] (good : σ → Prop) : Prop where
  timeStep : ∀ {source source' : σ} {value : UInt64}, good source →
    DrawSource.timeStep source = (value, source') → TimeStepInRange value ∧ good source'
  drift : ∀ {source source' : σ} {value : Binary64}, good source →
    DrawSource.drift source = (value, source') → good source'
  classifier : ∀ {source source' : σ} {value : Binary64}, good source →
    DrawSource.classifier source = (value, source') → good source'
  side : ∀ {source source' : σ} {value : Binary64}, good source →
    DrawSource.side source = (value, source') → good source'
  bookSize : ∀ {source source' : σ} {value : UInt32}, good source →
    DrawSource.bookSize source = (value, source') → good source'
  tradeSize : ∀ {source source' : σ} {value : UInt32}, good source →
    DrawSource.tradeSize source = (value, source') → good source'

theorem DriftInRange.isNaN_eq {value : Binary64} (h : DriftInRange value) :
    value.isNaN = false := by
  have hmost : value.atMost Walk.maxDrift = true := h.2
  rw [Binary64.atMost, Bool.and_eq_true, Bool.and_eq_true] at hmost
  simpa using hmost.1.1

theorem Steady.numeric [DrawSource σ] {good : σ → Prop} (h : Steady good) : Numeric good where
  timeStep hgood hdraw := (h.timeStep hgood hdraw).2
  drift hgood hdraw := ⟨(h.drift hgood hdraw).1.isNaN_eq, (h.drift hgood hdraw).2⟩
  classifier hgood hdraw := (h.classifier hgood hdraw).2
  side hgood hdraw := (h.side hgood hdraw).2
  bookSize hgood hdraw := (h.bookSize hgood hdraw).2
  tradeSize hgood hdraw := (h.tradeSize hgood hdraw).2

theorem Steady.timed [DrawSource σ] {good : σ → Prop} (h : Steady good) : Timed good where
  timeStep := h.timeStep
  drift hgood hdraw := (h.drift hgood hdraw).2
  classifier hgood hdraw := (h.classifier hgood hdraw).2
  side hgood hdraw := (h.side hgood hdraw).2
  bookSize hgood hdraw := (h.bookSize hgood hdraw).2
  tradeSize hgood hdraw := (h.tradeSize hgood hdraw).2

/-! ## Scripts -/

/-- A cycle has items, and all of them have a property. -/
structure Cycle.All (p : α → Prop) (cycle : Cycle α) : Prop where
  nonempty : cycle.items ≠ []
  items : ∀ item ∈ cycle.items, p item
  ahead : ∀ item ∈ cycle.ahead, p item

theorem Cycle.all_ofList {p : α → Prop} {items : List α} (hne : items ≠ [])
    (h : ∀ item ∈ items, p item) : (Cycle.ofList items).All p :=
  ⟨hne, h, h⟩

/-- The items of a cycle come round for ever. -/
theorem Cycle.All.next [Inhabited α] {p : α → Prop} {cycle : Cycle α} (h : cycle.All p) :
    p cycle.next.1 ∧ cycle.next.2.All p := by
  have hfrom {item : α} {ahead : List α} (hall : ∀ x ∈ item :: ahead, p x) :
      p item ∧ Cycle.All p { cycle with ahead } :=
    ⟨hall item List.mem_cons_self, h.nonempty, h.items,
      fun x hmem => hall x (List.mem_cons_of_mem _ hmem)⟩
  rw [Cycle.next]
  split
  · rename_i item ahead hahead
    exact hfrom (hahead ▸ h.ahead)
  · split
    · rename_i item ahead hitems
      exact hfrom (hitems ▸ h.items)
    · rename_i hitems
      exact absurd hitems h.nonempty

/-- All values that a script lays down are in range. -/
structure Script.InRange (script : Script) : Prop where
  timeSteps : script.timeSteps.All TimeStepInRange
  drifts : script.drifts.All DriftInRange
  classifiers : script.classifiers.All ShareInRange
  sides : script.sides.All ShareInRange
  bookSizes : script.bookSizes.All BookSizeInRange
  tradeSizes : script.tradeSizes.All TradeSizeInRange

theorem steady_script : Steady Script.InRange where
  timeStep := by
    rintro script _ _ h ⟨⟩
    exact ⟨h.timeSteps.next.1, { h with timeSteps := h.timeSteps.next.2 }⟩
  drift := by
    rintro script _ _ h ⟨⟩
    exact ⟨h.drifts.next.1, { h with drifts := h.drifts.next.2 }⟩
  classifier := by
    rintro script _ _ h ⟨⟩
    exact ⟨h.classifiers.next.1, { h with classifiers := h.classifiers.next.2 }⟩
  side := by
    rintro script _ _ h ⟨⟩
    exact ⟨h.sides.next.1, { h with sides := h.sides.next.2 }⟩
  bookSize := by
    rintro script _ _ h ⟨⟩
    exact ⟨h.bookSizes.next.1, { h with bookSizes := h.bookSizes.next.2 }⟩
  tradeSize := by
    rintro script _ _ h ⟨⟩
    exact ⟨h.tradeSizes.next.1, { h with tradeSizes := h.tradeSizes.next.2 }⟩

end MarketTape
