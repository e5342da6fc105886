import MarketTape.Proofs.Record.Fields
import MarketTape.Proofs.Settings.Run
import MarketTape.Proofs.Walk.Sides

/-!
# The books of a run

Every book that an emitter meets is the book of a walk on the grid with the emitter's
own spread, so that what holds of the books of such walks holds at every tick. The
prices of a record are sides of the book that it was made from.
-/

namespace MarketTape

open Binary64

/-- The book that a tick met, if it came so far. -/
def Emission.book? : Emission → Option Book
  | .tick _ book => some book
  | .exhausted => none
  | .crossed book => some book

namespace Emitter

variable {σ : Type} [DrawSource σ] {good : σ → Prop} {first second last : Emitter σ}
variable {emission : Emission} {record : Record} {book : Book}

/-- An emitter on the grid whose drifts are numbers. -/
structure Walking (good : σ → Prop) (emitter : Emitter σ) : Prop where
  source : good emitter.source
  onGrid : emitter.walk.OnGrid

/-- A book of some walk on the grid with a given spread. -/
def BookAt (spread : Binary64) (book : Book) : Prop :=
  ∃ walk : Walk, walk.OnGrid ∧ walk.spread = spread ∧ book = walk.book

/-! ## One tick -/

/-- A tick keeps an emitter walking with the same spread, and meets the book of its walk. -/
theorem Walking.step (hnumeric : Numeric good) (hwalking : first.Walking good)
    (h : first.Step emission second) :
    second.Walking good ∧ second.walk.spread = first.walk.spread ∧
      ∀ book, emission.book? = some book → BookAt first.walk.spread book := by
  obtain ⟨hgood, hgrid⟩ := hwalking
  have hmoves {timeStep : UInt64} {drift : Binary64} {timed drifted : σ}
      (htime : DrawSource.timeStep first.source = (timeStep, timed))
      (hdrift : DrawSource.drift timed = (drift, drifted)) :
      good drifted ∧ (first.walk.step drift).OnGrid := by
    obtain ⟨hnumber, hdrifted⟩ := hnumeric.drift (hnumeric.timeStep hgood htime) hdrift
    exact ⟨hdrifted, hgrid.step hnumber⟩
  cases h with
  | exhausted htime hfull => exact ⟨⟨hnumeric.timeStep hgood htime, hgrid⟩, rfl, nofun⟩
  | quote htime hroom hdrift hclassifier hquote hbid hask =>
      obtain ⟨hdrifted, hmoved⟩ := hmoves htime hdrift
      have hsource := hnumeric.bookSize
        (hnumeric.bookSize (hnumeric.classifier hdrifted hclassifier) hbid) hask
      refine ⟨⟨hsource, hmoved⟩, rfl, ?_⟩
      rintro book ⟨⟩
      exact ⟨_, hmoved, rfl, rfl⟩
  | trade htime hroom hdrift hclassifier htrade hopen hside hsize =>
      obtain ⟨hdrifted, hmoved⟩ := hmoves htime hdrift
      have hsource := hnumeric.tradeSize
        (hnumeric.side (hnumeric.classifier hdrifted hclassifier) hside) hsize
      refine ⟨⟨hsource, hmoved⟩, rfl, ?_⟩
      rintro book ⟨⟩
      exact ⟨_, hmoved, rfl, rfl⟩
  | crossed htime hroom hdrift hclassifier htrade hcrossed =>
      obtain ⟨hdrifted, hmoved⟩ := hmoves htime hdrift
      refine ⟨⟨hnumeric.classifier hdrifted hclassifier, hmoved⟩, rfl, ?_⟩
      rintro book ⟨⟩
      exact ⟨_, hmoved, rfl, rfl⟩

/-- The prices of a record are sides of its book. -/
theorem Step.prices (h : first.Step (.tick record book) second) :
    ∀ price ∈ record.prices, ∃ side, price = book.price side := by
  intro price hmem
  cases h with
  | quote =>
      rcases List.mem_pair.mp hmem with rfl | rfl
      · exact ⟨.bid, rfl⟩
      · exact ⟨.ask, rfl⟩
  | trade =>
      rw [List.mem_singleton.mp hmem]
      exact ⟨_, rfl⟩

/-- A quote carries both sides of its book. -/
theorem Step.quote_sides {quote : Quote} (h : first.Step (.tick (.quote quote) book) second) :
    quote.bidPrice = book.bid ∧ quote.askPrice = book.ask := by
  cases h
  exact ⟨rfl, rfl⟩

/-! ## Ticks in a row -/

/-- What comes of ticks in a row comes of one tick behind others, and what every tick
keeps still holds there. -/
theorem exists_step_of_mem_nexts {p : Emitter σ → Prop}
    (hstep : ∀ {first second : Emitter σ} {emission : Emission}, p first →
      first.Step emission second → p second)
    (hfirst : p first) {count : ℕ} (hmem : emission ∈ (first.nexts count).1) :
    ∃ before after, p before ∧ before.Step emission after := by
  induction count generalizing first with
  | zero => cases hmem
  | succ count ih =>
      rw [nexts] at hmem
      split at hmem
      · rename_i book after hnext
        rw [List.mem_singleton.mp hmem]
        exact ⟨first, after, hfirst, Step.of_next hnext⟩
      · rename_i head after hcrossed hnext
        rcases List.mem_cons.mp hmem with rfl | hrest
        · exact ⟨first, after, hfirst, Step.of_next hnext⟩
        · exact ih (hstep hfirst (Step.of_next hnext)) hrest

/-- All books that are met are those of walks on the grid with the emitter's spread. -/
theorem Walking.bookAt_of_mem (hnumeric : Numeric good) (hwalking : first.Walking good)
    {count : ℕ} (hmem : emission ∈ (first.nexts count).1) (hbook : emission.book? = some book) :
    BookAt first.walk.spread book := by
  have hstep {before after : Emitter σ} {emission : Emission}
      (h : before.Walking good ∧ before.walk.spread = first.walk.spread)
      (htick : before.Step emission after) :
      after.Walking good ∧ after.walk.spread = first.walk.spread := by
    obtain ⟨hafter, hspread, -⟩ := h.1.step hnumeric htick
    exact ⟨hafter, hspread.trans h.2⟩
  obtain ⟨before, after, ⟨hbefore, hspread⟩, htick⟩ :=
    exists_step_of_mem_nexts hstep ⟨hwalking, rfl⟩ hmem
  obtain ⟨-, -, hmet⟩ := hbefore.step hnumeric htick
  exact hspread ▸ hmet book hbook

/-- The prices of a record that comes of a tick are sides of its book. -/
theorem side_of_mem_prices {count : ℕ} (hmem : .tick record book ∈ (first.nexts count).1) :
    ∀ price ∈ record.prices, ∃ side, price = book.price side := by
  obtain ⟨before, after, -, htick⟩ :=
    exists_step_of_mem_nexts (p := fun _ => True) (fun h _ => h) trivial hmem
  exact htick.prices

/-- Whether a side is finite, and where it lies then. -/
theorem BookAt.price_between {spread : Binary64} (h : BookAt spread book)
    (hspread : spread.isFinite = true) (hpos : 0 < spread) (side : Side) :
    ((book.price side).isFinite = true ↔ Walk.Quotable spread) ∧
      ((book.price side).isFinite = true →
        90 - spread.toRat / 2 - Walk.slack spread.toRat ≤ (book.price side).toRat ∧
          (book.price side).toRat ≤ 110 + spread.toRat / 2 + Walk.slack spread.toRat) := by
  obtain ⟨walk, hgrid, rfl, rfl⟩ := h
  have hfinite := hgrid.isFinite_price_iff hspread side
  refine ⟨hfinite, ?_⟩
  intro h
  exact hgrid.price_between hspread hpos (hfinite.mp h) side

/-! ## The width of books -/

/-- A spread of an even number of cents is quoted exactly at every mid, half of it to
either side, and any other moderate spread is met but for the cent that the rounding of
both sides can take. So it is with all books that an emitter meets, whichever run it
meets them in. -/
theorem books_keep_width (hnumeric : Numeric good) (hwalking : first.Walking good) :
    (∀ (walk : Walk) (m k : ℕ), walk.AtCent m → 1 ≤ k → k ≤ 10 ^ 9 →
      walk.spread = Price.ofCents (2 * k : ℕ) →
        walk.book.bid = Price.ofCents (m - k : ℤ) ∧ walk.book.ask = Price.ofCents (m + k : ℕ) ∧
          walk.book.centsWide = 2 * k) ∧
      (∀ walk : Walk, walk.OnGrid → walk.spread.isFinite = true → 0 < walk.spread →
        walk.spread.toRat ≤ 10 ^ 6 →
          |(walk.book.centsWide : ℚ) - 100 * walk.spread.toRat| ≤ 1 + 1 / 10 ^ 6) ∧
      ∀ (count : ℕ) (emission : Emission) (book : Book), emission ∈ (first.nexts count).1 →
        emission.book? = some book →
          (∀ quote, emission = .tick (.quote quote) book →
            quote.bidPrice = book.bid ∧ quote.askPrice = book.ask) ∧
          (∀ k : ℕ, 1 ≤ k → k ≤ 10 ^ 9 → first.walk.spread = Price.ofCents (2 * k : ℕ) →
            book.centsWide = 2 * k) ∧
          (first.walk.spread.isFinite = true → 0 < first.walk.spread →
            first.walk.spread.toRat ≤ 10 ^ 6 →
              |(book.centsWide : ℚ) - 100 * first.walk.spread.toRat| ≤ 1 + 1 / 10 ^ 6) := by
  have hnear (walk : Walk) (hgrid : walk.OnGrid) (hfinite : walk.spread.isFinite = true)
      (hpos : 0 < walk.spread) (hle : walk.spread.toRat ≤ 10 ^ 6) :
      |(walk.book.centsWide : ℚ) - 100 * walk.spread.toRat| ≤ 1 + 1 / 10 ^ 6 := by
    apply hgrid.width_near hfinite
    rwa [abs_of_pos ((pos_iff_toRat_pos hfinite).mp hpos)]
  refine ⟨fun walk m k => Walk.AtCent.sides_eq, hnear, ?_⟩
  intro count emission book hmem hbook
  obtain ⟨walk, hgrid, hspread, rfl⟩ := hwalking.bookAt_of_mem hnumeric hmem hbook
  rw [← hspread]
  refine ⟨?_, ?_, hnear walk hgrid⟩
  · rintro quote rfl
    obtain ⟨before, after, -, htick⟩ :=
      exists_step_of_mem_nexts (p := fun _ => True) (fun h _ => h) trivial hmem
    exact htick.quote_sides
  · intro k hpos hk heven
    obtain ⟨m, hcent⟩ := hgrid
    exact (Walk.AtCent.sides_eq hcent hpos hk heven).2.2

theorem books_keep_width_standard :
    Numeric Script.InRange ∧ (Settings.standard.emitterFrom Settings.turns).Walking Script.InRange ∧
      Walk.standard.AtCent 10000 ∧ Walk.standard.spread = Price.ofCents (2 * 1 : ℕ) ∧
      Walk.standard.book.bid = Price.ofCents (10000 - 1) ∧
      Walk.standard.book.ask = Price.ofCents (10000 + 1) ∧
      |(Walk.standard.book.centsWide : ℚ) - 100 * Walk.standard.spread.toRat| ≤ 1 + 1 / 10 ^ 6 ∧
      ∃ record book after,
        (Settings.standard.emitterFrom Settings.turns).next = (.tick record book, after) ∧
          book.centsWide = 2 := by
  have hnumeric := steady_script.numeric
  have hsound := Settings.usable_standard.sound Settings.inRange_turns
  have hwalking : (Settings.standard.emitterFrom Settings.turns).Walking Script.InRange :=
    ⟨hsound.source, hsound.onGrid⟩
  have hspread : Walk.standard.spread = Price.ofCents (2 * 1 : ℕ) := by decide +kernel
  have hcent : Walk.standard.AtCent 10000 := ⟨by omega, by omega, by decide +kernel⟩
  obtain ⟨hexact, hnear, hticks⟩ := books_keep_width hnumeric hwalking
  obtain ⟨hbid, hask, -⟩ := hexact Walk.standard 10000 1 hcent (le_refl 1) (by omega) hspread
  obtain ⟨record, book, after, hnext, -⟩ := hsound.exists_next steady_script (by decide)
  have hmem : Emission.tick record book ∈
      ((Settings.standard.emitterFrom Settings.turns).nexts 1).1 := by
    rw [nexts, hnext]
    exact List.mem_singleton_self _
  obtain ⟨-, heven, -⟩ := hticks 1 _ book hmem rfl
  refine ⟨hnumeric, hwalking, hcent, hspread, hbid, hask, ?_, record, book, after, hnext, ?_⟩
  · exact hnear Walk.standard ⟨10000, hcent⟩ (by decide +kernel) (by decide +kernel)
      (by decide +kernel)
  · exact heven 1 (le_refl 1) (by omega) (by decide +kernel)

end Emitter

end MarketTape
