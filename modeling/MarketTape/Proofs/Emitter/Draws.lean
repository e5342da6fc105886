import MarketTape.Proofs.Settings.Run
import Mathlib.Data.List.Forall2

/-!
# The draws of a tick

A tick that makes a record takes five draws from its source, always in one of two
orders, and the classifier among them decides which. `TickDraws.ofSource` finds
them without an emitter: neither the clock nor the walk nor the symbol has a say in
what is drawn. So two emitters with equal sources go on side by side for as many
ticks as both of them make, however they differ otherwise.
-/

namespace MarketTape

/-! ## Draws with their values -/

/-- A draw with the value that it gave. -/
inductive Drawn where
  | timeStep (value : UInt64)
  | drift (value : Binary64)
  | classifier (value : Binary64)
  | side (value : Binary64)
  | bookSize (value : UInt32)
  | tradeSize (value : UInt32)

/-- A source with all draws that were made from it, in order. -/
structure Observed (σ : Type) where
  source : σ
  drawn : List Drawn

namespace Observed

variable {σ α : Type}

/-- One draw, which is put behind those before it. -/
def note (kind : α → Drawn) (draw : σ → α × σ) (observed : Observed σ) : α × Observed σ :=
  let (value, source) := draw observed.source
  (value, ⟨source, observed.drawn ++ [kind value]⟩)

instance [DrawSource σ] : DrawSource (Observed σ) where
  timeStep := note .timeStep DrawSource.timeStep
  drift := note .drift DrawSource.drift
  classifier := note .classifier DrawSource.classifier
  side := note .side DrawSource.side
  bookSize := note .bookSize DrawSource.bookSize
  tradeSize := note .tradeSize DrawSource.tradeSize

end Observed

/-- The five draws of a tick that makes a record, in order. -/
inductive TickDraws where
  | quote (timeStep : UInt64) (drift classifier : Binary64) (bidSize askSize : UInt32)
      (hquote : classifier < Emitter.quoteShare)
  | trade (timeStep : UInt64) (drift classifier part : Binary64) (size : UInt32)
      (htrade : ¬ classifier < Emitter.quoteShare)

namespace TickDraws

def timeStep : TickDraws → UInt64
  | quote timeStep .. => timeStep
  | trade timeStep .. => timeStep

def drift : TickDraws → Binary64
  | quote _ drift .. => drift
  | trade _ drift .. => drift

/-- The kind of the record that is made of the draws. -/
def kind : TickDraws → Kind
  | quote .. => .quote
  | trade .. => .trade

/-- The draws one by one. -/
def drawn : TickDraws → List Drawn
  | quote timeStep drift classifier bidSize askSize _ =>
    [.timeStep timeStep, .drift drift, .classifier classifier, .bookSize bidSize,
      .bookSize askSize]
  | trade timeStep drift classifier part size _ =>
    [.timeStep timeStep, .drift drift, .classifier classifier, .side part, .tradeSize size]

@[simp] theorem length_drawn (draws : TickDraws) : draws.drawn.length = 5 := by
  cases draws <;> rfl

/-- The record that is made of the draws. -/
def record (draws : TickDraws) (symbol : String) (timestamp : UInt64) (book : Book) : Record :=
  match draws with
  | quote _ _ _ bidSize askSize _ =>
    .quote { timestamp, symbol, bidPrice := book.bid, bidSize, askPrice := book.ask, askSize }
  | trade _ _ _ part size _ =>
    .trade { timestamp, symbol, price := book.price (Emitter.sideAt part), size }

@[simp] theorem kind_record (draws : TickDraws) (symbol : String) (timestamp : UInt64)
    (book : Book) : (draws.record symbol timestamp book).kind = draws.kind := by
  cases draws <;> rfl

@[simp] theorem timestamp_record (draws : TickDraws) (symbol : String) (timestamp : UInt64)
    (book : Book) : (draws.record symbol timestamp book).timestamp = timestamp := by
  cases draws <;> rfl

variable {σ : Type} [DrawSource σ]

/-- The draws that a tick makes from a source if nothing stops it. -/
def ofSource (source : σ) : TickDraws × σ :=
  let (timeStep, source) := DrawSource.timeStep source
  let (drift, source) := DrawSource.drift source
  let (classifier, source) := DrawSource.classifier source
  if h : classifier < Emitter.quoteShare then
    let (bidSize, source) := DrawSource.bookSize source
    let (askSize, source) := DrawSource.bookSize source
    (quote timeStep drift classifier bidSize askSize h, source)
  else
    let (part, source) := DrawSource.side source
    let (size, source) := DrawSource.tradeSize source
    (trade timeStep drift classifier part size h, source)

theorem timeStep_ofSource (source : σ) :
    (ofSource source).1.timeStep = (DrawSource.timeStep source).1 := by
  simp only [ofSource]
  split <;> rfl

/-- The draws that ticks in a row make from a source. -/
def row : Nat → σ → List TickDraws × σ
  | 0, source => ([], source)
  | count + 1, source =>
    let (draws, source) := ofSource source
    let (rest, source) := row count source
    (draws :: rest, source)

theorem length_row (count : Nat) (source : σ) : (row count source).1.length = count := by
  induction count generalizing source with
  | zero => rfl
  | succ count ih => exact congrArg Nat.succ (ih _)

/-- To observe a source changes none of its draws. -/
theorem ofSource_observed (source : σ) (drawn : List Drawn) :
    ofSource (Observed.mk source drawn) =
      ((ofSource source).1,
        ⟨(ofSource source).2, drawn ++ (ofSource source).1.drawn⟩) := by
  by_cases h : (DrawSource.classifier
      (DrawSource.drift (DrawSource.timeStep source).2).2).1 < Emitter.quoteShare
  · simp [ofSource, DrawSource.timeStep, DrawSource.drift, DrawSource.classifier,
      DrawSource.bookSize, Observed.note, h, TickDraws.drawn]
  · simp [ofSource, DrawSource.timeStep, DrawSource.drift, DrawSource.classifier,
      DrawSource.side, DrawSource.tradeSize, Observed.note, h, TickDraws.drawn]

end TickDraws

/-! ## Ticks by their draws -/

/-- The sizes that a record reports. -/
def Record.sizes : Record → List UInt32
  | .quote q => [q.bidSize, q.askSize]
  | .trade t => [t.size]

/-- Two ticks that differ in nothing but what the emitters of their tapes differ in. -/
structure Alike (start start' : UInt64) (tick tick' : Record × Book) : Prop where
  kind : tick'.1.kind = tick.1.kind
  sizes : tick'.1.sizes = tick.1.sizes
  side : ∀ trade trade', tick.1 = .trade trade → tick'.1 = .trade trade' →
    ∃ side, trade.price = tick.2.price side ∧ trade'.price = tick'.2.price side
  elapsed : ∃ elapsed : ℕ, tick.1.timestamp.toNat = start.toNat + elapsed ∧
    tick'.1.timestamp.toNat = start'.toNat + elapsed

theorem TickDraws.alike_record (draws : TickDraws) (symbol symbol' : String)
    {start start' timestamp timestamp' : UInt64} (book book' : Book)
    (helapsed : ∃ elapsed : ℕ, timestamp.toNat = start.toNat + elapsed ∧
      timestamp'.toNat = start'.toNat + elapsed) :
    Alike start start' (draws.record symbol timestamp book, book)
      (draws.record symbol' timestamp' book', book') := by
  constructor
  case kind => simp
  case sizes => cases draws <;> rfl
  case side =>
    intro trade trade' htrade htrade'
    cases draws with
    | quote => cases htrade
    | trade _ _ _ part =>
        cases htrade
        cases htrade'
        exact ⟨Emitter.sideAt part, rfl, rfl⟩
  case elapsed => simpa using helapsed

namespace Emitter

open TickDraws

variable {σ : Type} [DrawSource σ] {first second last last' : Emitter σ}
variable {record : Record} {book : Book} {ticks ticks' : List (Record × Book)}

/-- The clock has room for the time step, and the book is open if there is to be a trade. -/
structure Admits (emitter : Emitter σ) (draws : TickDraws) : Prop where
  room : emitter.clock.toNat + draws.timeStep.toNat < UInt64.size
  isOpen : draws.kind = .trade → (emitter.walk.step draws.drift).book.isOpen = true

/-- The emitter that a tick leaves behind. -/
def advance (emitter : Emitter σ) (draws : TickDraws) (source : σ) : Emitter σ where
  symbol := emitter.symbol
  clock := emitter.clock + draws.timeStep
  walk := emitter.walk.step draws.drift
  source := source

/-- The tick that was made of some draws, with the emitter that it left behind. -/
def madeOf (second : Emitter σ) (draws : TickDraws) : Record × Book :=
  (draws.record second.symbol second.clock second.walk.book, second.walk.book)

theorem Step.madeOf (h : first.Step (.tick record book) second) :
    first.Admits (ofSource first.source).1 ∧
      second = first.advance (ofSource first.source).1 (ofSource first.source).2 ∧
      (record, book) = second.madeOf (ofSource first.source).1 := by
  cases h with
  | quote htime hroom hdrift hclassifier hquote hbid hask =>
      simp only [ofSource, htime, hdrift, hclassifier, dif_pos hquote, hbid, hask]
      exact ⟨⟨hroom, nofun⟩, rfl, rfl⟩
  | trade htime hroom hdrift hclassifier htrade hopen hside hsize =>
      simp only [ofSource, htime, hdrift, hclassifier, dif_neg htrade, hside, hsize]
      exact ⟨⟨hroom, fun _ => hopen⟩, rfl, rfl⟩

/-- The draws of a tick, and whether the emitter admits them, are all there is to it. -/
theorem next_eq_tick_iff :
    first.next = (.tick record book, second) ↔
      first.Admits (ofSource first.source).1 ∧
        second = first.advance (ofSource first.source).1 (ofSource first.source).2 ∧
        (record, book) = second.madeOf (ofSource first.source).1 := by
  constructor
  · intro h
    exact (Step.of_next h).madeOf
  · rintro ⟨hadmits, hsecond, htick⟩
    cases hnext : first.next with
    | mk emission after =>
        have hstep := Step.of_next hnext
        cases emission with
        | tick record' book' =>
            obtain ⟨-, rfl, htick'⟩ := hstep.madeOf
            obtain ⟨rfl, rfl⟩ := Prod.mk.inj (htick.trans (hsecond ▸ htick'.symm))
            rw [hsecond]
        | exhausted =>
            cases hstep with
            | exhausted htime hfull =>
                have hroom := hadmits.room
                rw [timeStep_ofSource, htime] at hroom
                exact absurd hroom (Nat.not_lt.mpr hfull)
        | crossed book' =>
            cases hstep with
            | crossed htime hroom hdrift hclassifier htrade hcrossed =>
                have hopen := hadmits.isOpen
                simp only [ofSource, htime, hdrift, hclassifier, dif_neg htrade] at hopen
                cases hcrossed.symm.trans (hopen rfl)

/-! ## Ticks in a row by their draws -/

/-- An emitter with all draws from its source noted down behind some earlier ones. -/
def observed (emitter : Emitter σ) (drawn : List Drawn) : Emitter (Observed σ) :=
  { emitter with source := ⟨emitter.source, drawn⟩ }

theorem next_observed (h : first.next = (.tick record book, second)) (drawn : List Drawn) :
    (first.observed drawn).next =
      (.tick record book, second.observed (drawn ++ (ofSource first.source).1.drawn)) := by
  obtain ⟨hadmits, rfl, htick⟩ := next_eq_tick_iff.mp h
  rw [next_eq_tick_iff, observed, ofSource_observed]
  exact ⟨⟨hadmits.room, hadmits.isOpen⟩, rfl, htick⟩

namespace Makes

theorem row_source (h : Makes first ticks last) :
    (row ticks.length first.source).2 = last.source := by
  induction h with
  | nil => rfl
  | cons hnext _ ih =>
      obtain ⟨-, rfl, -⟩ := next_eq_tick_iff.mp hnext
      exact ih

/-- The classifier among the draws says what kind of record is made. -/
theorem row_kind (h : Makes first ticks last) :
    (row ticks.length first.source).1.map kind = ticks.map fun tick => tick.1.kind := by
  induction h with
  | nil => rfl
  | cons hnext _ ih =>
      obtain ⟨-, rfl, htick⟩ := next_eq_tick_iff.mp hnext
      obtain ⟨rfl, -⟩ := Prod.mk.inj htick
      rw [List.map_cons, ← ih, kind_record]
      rfl

/-- Ticks in a row draw what they would draw from their source alone. -/
theorem observed (h : Makes first ticks last) (drawn : List Drawn) :
    Makes (first.observed drawn) ticks
      (last.observed (drawn ++ (row ticks.length first.source).1.flatMap TickDraws.drawn)) := by
  induction h generalizing drawn with
  | nil emitter =>
      rw [List.length_nil, row, List.flatMap_nil, List.append_nil]
      exact .nil _
  | @cons first _ _ _ _ _ hnext _ ih =>
      obtain ⟨-, rfl, -⟩ := next_eq_tick_iff.mp hnext
      have hrest := ih (drawn ++ (ofSource first.source).1.drawn)
      rw [List.append_assoc] at hrest
      exact .cons (next_observed hnext drawn) hrest

/-- Emitters whose sources are equal and whose clocks are as far from their starts make
ticks that are alike. -/
theorem alike {start start' : UInt64} (h : Makes first ticks last)
    (h' : Makes second ticks' last') (hlength : ticks'.length = ticks.length)
    (hsource : second.source = first.source)
    (helapsed : ∃ elapsed : ℕ, first.clock.toNat = start.toNat + elapsed ∧
      second.clock.toNat = start'.toNat + elapsed) :
    List.Forall₂ (Alike start start') ticks ticks' := by
  -- The second run goes along with the first: equal sources give each pair of ticks the same
  -- draws, and leave equal sources again.
  induction h generalizing second ticks' with
  | nil =>
      obtain rfl := List.length_eq_zero_iff.mp hlength
      exact .nil
  | @cons first _ _ _ _ _ hnext _ ih =>
      cases h' with
      | nil => cases hlength
      | cons hnext' hrest' =>
          obtain ⟨hadmits, rfl, htick⟩ := next_eq_tick_iff.mp hnext
          obtain ⟨hadmits', rfl, htick'⟩ := next_eq_tick_iff.mp hnext'
          rw [hsource] at hadmits' htick' hrest'
          obtain ⟨elapsed, hfirst, hsecond⟩ := helapsed
          have hlater : ∃ elapsed : ℕ,
              (first.advance (ofSource first.source).1 (ofSource first.source).2).clock.toNat =
                start.toNat + elapsed ∧
              (second.advance (ofSource first.source).1 (ofSource first.source).2).clock.toNat =
                start'.toNat + elapsed := by
            refine ⟨elapsed + (ofSource first.source).1.timeStep.toNat, ?_, ?_⟩
            · rw [advance, toNat_clock_add hadmits.room, hfirst, Nat.add_assoc]
            · rw [advance, toNat_clock_add hadmits'.room, hsecond, Nat.add_assoc]
          refine .cons ?_ (ih hrest' (Nat.succ.inj hlength) rfl hlater)
          rw [htick, htick']
          exact alike_record _ _ _ _ _ hlater

/-- The walk of the mid does not depend on the spread. -/
theorem mids_eq (h : Makes first ticks last) (h' : Makes second ticks' last')
    (hlength : ticks'.length = ticks.length) (hsource : second.source = first.source)
    (hmid : second.walk.mid = first.walk.mid) :
    (ticks'.map fun tick => tick.2.mid) = ticks.map fun tick => tick.2.mid := by
  induction h generalizing second ticks' with
  | nil =>
      obtain rfl := List.length_eq_zero_iff.mp hlength
      rfl
  | @cons first _ _ _ _ _ hnext _ ih =>
      cases h' with
      | nil => cases hlength
      | cons hnext' hrest' =>
          obtain ⟨-, rfl, htick⟩ := next_eq_tick_iff.mp hnext
          obtain ⟨-, rfl, htick'⟩ := next_eq_tick_iff.mp hnext'
          rw [hsource] at htick' hrest'
          have hmid' : (second.walk.step (ofSource first.source).1.drift).mid =
              (first.walk.step (ofSource first.source).1.drift).mid := by
            rw [Walk.step, hmid]
            rfl
          rw [List.map_cons, List.map_cons, htick, htick',
            ih hrest' (Nat.succ.inj hlength) rfl hmid']
          exact congrArg (List.cons · _) hmid'

end Makes

/-- These are all the draws that an emitter makes for some ticks, in order. -/
structure Uses (emitter : Emitter σ) (draws : List TickDraws) (ticks : List (Record × Book))
    (last : Emitter σ) : Prop where
  drawn : (emitter.observed []).nexts draws.length =
    (ticks.map Emission.ofTick, last.observed (draws.flatMap TickDraws.drawn))
  kind : draws.map kind = ticks.map fun tick => tick.1.kind

theorem Makes.uses (h : Makes first ticks last) :
    first.Uses (row ticks.length first.source).1 ticks last := by
  refine ⟨?_, h.row_kind⟩
  rw [length_row]
  exact nexts_eq_iff.mpr ⟨h.observed [], rfl⟩

/-- Ticks that make records use five draws each, and emitters with equal sources use
the same draws for ticks that are alike. -/
theorem draws_independent {count : ℕ}
    (hnexts : first.nexts count = (ticks.map Emission.ofTick, last)) :
    ∃ draws : List TickDraws, draws.length = count ∧
      (draws.flatMap TickDraws.drawn).length = 5 * count ∧ first.Uses draws ticks last ∧
      ∀ (second last' : Emitter σ) (ticks' : List (Record × Book)),
        second.source = first.source →
        second.nexts count = (ticks'.map Emission.ofTick, last') →
        second.Uses draws ticks' last' ∧ last'.source = last.source ∧
          List.Forall₂ (Alike first.clock second.clock) ticks ticks' ∧
          (second.walk.mid = first.walk.mid →
            (ticks'.map fun tick => tick.2.mid) = ticks.map fun tick => tick.2.mid) := by
  obtain ⟨hmakes, rfl⟩ := nexts_eq_iff.mp hnexts
  refine ⟨(row ticks.length first.source).1, length_row _ _, ?_, hmakes.uses, ?_⟩
  · simp [List.length_flatMap, length_row, Nat.mul_comm]
  · intro second last' ticks' hsource hnexts'
    obtain ⟨hmakes', hlength⟩ := nexts_eq_iff.mp hnexts'
    have hlast := hmakes'.row_source
    have huses := hmakes'.uses
    rw [hlength, hsource] at hlast huses
    refine ⟨huses, hlast.symm.trans hmakes.row_source, ?_, ?_⟩
    · exact hmakes.alike hmakes' hlength hsource ⟨0, rfl, rfl⟩
    · exact hmakes.mids_eq hmakes' hlength hsource

/-- The standard mid with a spread of six cents, on a clock that starts from zero. -/
def wide : Emitter Script where
  symbol := "WIDE"
  clock := 0
  walk := Walk.start 100 0.06
  source := Settings.turns

theorem draws_independent_wide :
    ∃ ticks last ticks' last',
      (Settings.standard.emitterFrom Settings.turns).nexts 1000 =
        (ticks.map Emission.ofTick, last) ∧
      wide.source = (Settings.standard.emitterFrom Settings.turns).source ∧
      wide.nexts 1000 = (ticks'.map Emission.ofTick, last') ∧
      ∃ draws : List TickDraws, draws.length = 1000 ∧
        (draws.flatMap TickDraws.drawn).length = 5 * 1000 ∧
        (Settings.standard.emitterFrom Settings.turns).Uses draws ticks last ∧
        wide.Uses draws ticks' last' ∧ last'.source = last.source ∧
        List.Forall₂ (Alike Settings.standard.start 0) ticks ticks' ∧
        (ticks'.map fun tick => tick.2.mid) = ticks.map fun tick => tick.2.mid := by
  have hspread : (0.06 : Binary64) = Price.ofCents (2 * 3 : Nat) := by decide +kernel
  have hsound : wide.Sound Script.InRange := by
    refine ⟨Settings.inRange_turns, Walk.onGrid_start (by decide +kernel) _, ?_⟩
    change Walk.staysOpen 0.06 = true
    rw [hspread]
    exact Walk.staysOpen_ofCents (by decide) (by omega)
  obtain ⟨ticks, last, hmakes, hlength, -⟩ :=
    (Settings.usable_standard.sound Settings.inRange_turns).exists_makes steady_script 1000
      (by decide)
  obtain ⟨ticks', last', hmakes', hlength', -⟩ :=
    hsound.exists_makes steady_script 1000 (by decide)
  have hmid : wide.walk.mid = (Settings.standard.emitterFrom Settings.turns).walk.mid := by
    simp only [wide, Settings.emitterFrom, Settings.standard, Walk.start]
  have hnexts := nexts_eq_iff.mpr ⟨hmakes, hlength⟩
  have hnexts' := nexts_eq_iff.mpr ⟨hmakes', hlength'⟩
  obtain ⟨draws, hdraws, hdrawn, huses, hsame⟩ := draws_independent hnexts
  obtain ⟨huses', hsource, halike, hmids⟩ := hsame wide last' ticks' rfl hnexts'
  exact ⟨ticks, last, ticks', last', hnexts, rfl, hnexts', draws, hdraws, hdrawn, huses, huses',
    hsource, halike, hmids hmid⟩

end Emitter

end MarketTape
