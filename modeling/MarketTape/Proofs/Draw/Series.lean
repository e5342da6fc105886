import MarketTape.Proofs.Draw.Generator
import MarketTape.Proofs.Emitter.Draws

/-!
# Series of draws

Draws may be made from a source in any order and number. A steady source keeps to the
ranges of a tape in all of them, since each draw leaves it steady. For a generator this
rests on the words of its stream in no way, and not on the number of attempts either: the
values that rejection without any limit gives lie in the same ranges.
-/

namespace MarketTape

-- Powers are the core library's, whichever others are in scope.
attribute [local instance (2000)] instPowNat

namespace Drawn

/-- The kind of a draw. -/
def kind : Drawn → Draw
  | timeStep _ => .timeStep
  | drift _ => .drift
  | classifier _ => .classifier
  | side _ => .side
  | bookSize _ => .bookSize
  | tradeSize _ => .tradeSize

/-- The value of a draw is in the range of its kind. A drift is also told to be a number,
though nothing else lies between two numbers. -/
def InRange : Drawn → Prop
  | timeStep value => TimeStepInRange value
  | drift value => value.isNaN = false ∧ DriftInRange value
  | classifier value => ShareInRange value
  | side value => ShareInRange value
  | bookSize value => BookSizeInRange value
  | tradeSize value => TradeSizeInRange value

end Drawn

/-! ## Steady sources -/

namespace Observed

variable {σ : Type} [DrawSource σ]

/-- One draw of a kind. -/
def draw (observed : Observed σ) : Draw → Observed σ
  | .timeStep => (DrawSource.timeStep observed).2
  | .drift => (DrawSource.drift observed).2
  | .classifier => (DrawSource.classifier observed).2
  | .side => (DrawSource.side observed).2
  | .bookSize => (DrawSource.bookSize observed).2
  | .tradeSize => (DrawSource.tradeSize observed).2

/-- A draw of each of some kinds, in order. -/
def drawAll (observed : Observed σ) (kinds : List Draw) : Observed σ := kinds.foldl draw observed

end Observed

namespace Steady

variable {σ : Type} [DrawSource σ] {good : σ → Prop} {observed : Observed σ}

/-- One draw notes down a value in range and leaves the source steady. -/
theorem draw (h : Steady good) (hgood : good observed.source) (kind : Draw) :
    ∃ drawn, (observed.draw kind).drawn = observed.drawn ++ [drawn] ∧ drawn.kind = kind ∧
      drawn.InRange ∧ good (observed.draw kind).source := by
  cases kind with
  | timeStep =>
      obtain ⟨hrange, hafter⟩ := h.timeStep hgood rfl
      exact ⟨.timeStep _, rfl, rfl, hrange, hafter⟩
  | drift =>
      obtain ⟨hrange, hafter⟩ := h.drift hgood rfl
      exact ⟨.drift _, rfl, rfl, ⟨hrange.isNaN_eq, hrange⟩, hafter⟩
  | classifier =>
      obtain ⟨hrange, hafter⟩ := h.classifier hgood rfl
      exact ⟨.classifier _, rfl, rfl, hrange, hafter⟩
  | side =>
      obtain ⟨hrange, hafter⟩ := h.side hgood rfl
      exact ⟨.side _, rfl, rfl, hrange, hafter⟩
  | bookSize =>
      obtain ⟨hrange, hafter⟩ := h.bookSize hgood rfl
      exact ⟨.bookSize _, rfl, rfl, hrange, hafter⟩
  | tradeSize =>
      obtain ⟨hrange, hafter⟩ := h.tradeSize hgood rfl
      exact ⟨.tradeSize _, rfl, rfl, hrange, hafter⟩

/-- A series of draws notes down a value in range for each of its kinds. -/
theorem drawAll (h : Steady good) (observed : Observed σ) (hgood : good observed.source)
    (kinds : List Draw) :
    ∃ drawn, (observed.drawAll kinds).drawn = observed.drawn ++ drawn ∧
      drawn.map Drawn.kind = kinds ∧ ∀ one ∈ drawn, one.InRange := by
  induction kinds generalizing observed with
  | nil => exact ⟨[], (List.append_nil _).symm, rfl, by simp⟩
  | cons kind kinds ih =>
      obtain ⟨first, hfirst, hkind, hrange, hafter⟩ := h.draw hgood kind
      obtain ⟨drawn, hdrawn, hkinds, hranges⟩ := ih _ hafter
      refine ⟨first :: drawn, ?_, ?_, List.forall_mem_cons.mpr ⟨hrange, hranges⟩⟩
      · rw [hfirst, List.append_assoc] at hdrawn
        exact hdrawn
      · rw [List.map_cons, hkind, hkinds]

end Steady

/-! ## Generators -/

namespace Generator

section Rejection

variable {ω : Type} {width low count : Nat} {next : ω → Nat × ω} {words after : ω} {value : Nat}

/-- A number that is drawn by rejection, however many numbers are refused before it. -/
inductive Sampled (width : Nat) (next : ω → Nat × ω) (low count : Nat) : ω → Nat → ω → Prop
  | accepted {words : ω} {value : Nat}
      (haccept : (next words).1 * count % 2 ^ width ≤ zone width count)
      (hvalue : value = low + (next words).1 * count / 2 ^ width) :
      Sampled width next low count words value (next words).2
  | refused {words after : ω} {value : Nat}
      (hrefuse : zone width count < (next words).1 * count % 2 ^ width)
      (hrest : Sampled width next low count (next words).2 value after) :
      Sampled width next low count words value after

/-- With attempts enough, the bounded draw gives what rejection without a limit gives. -/
theorem Sampled.exists_attempts (h : Sampled width next low count words value after) :
    ∃ attempts, draw width next low count attempts words = (value, after) := by
  induction h with
  | accepted haccept hvalue => exact ⟨1, hvalue ▸ if_pos haccept⟩
  | refused hrefuse _ ih =>
      obtain ⟨attempts, hdraw⟩ := ih
      exact ⟨attempts + 1, (if_neg (Nat.not_le.mpr hrefuse)).trans hdraw⟩

/-- The bounded draw is rejection without a limit as long as it comes to a number that is
accepted, the one with `ahead` others in front of it. -/
theorem sampled_draw {attempts ahead : Nat} (hle : ahead ≤ attempts)
    (haccept : (next ((fun words => (next words).2)^[ahead] words)).1 * count % 2 ^ width ≤
      zone width count) :
    Sampled width next low count words (draw width next low count attempts words).1
      (draw width next low count attempts words).2 := by
  induction attempts generalizing words ahead with
  | zero =>
      obtain rfl := Nat.le_zero.mp hle
      exact .accepted haccept rfl
  | succ attempts ih =>
      by_cases hfirst : (next words).1 * count % 2 ^ width ≤ zone width count
      · have hdraw : draw width next low count (attempts + 1) words =
            (low + (next words).1 * count / 2 ^ width, (next words).2) := if_pos hfirst
        rw [hdraw]
        exact .accepted hfirst rfl
      · have hdraw : draw width next low count (attempts + 1) words =
            draw width next low count attempts (next words).2 := if_neg hfirst
        rw [hdraw]
        cases ahead with
        | zero => exact absurd haccept hfirst
        | succ ahead =>
            rw [Function.iterate_succ_apply] at haccept
            exact .refused (Nat.lt_of_not_le hfirst) (ih (Nat.le_of_succ_le_succ hle) haccept)

theorem Sampled.between (h : Sampled width next low count words value after)
    (hnext : ∀ words, (next words).1 < 2 ^ width) (hpos : 0 < count) :
    low ≤ value ∧ value < low + count := by
  obtain ⟨attempts, hdraw⟩ := h.exists_attempts
  have hbetween := draw_between low count hnext hpos attempts words
  rwa [hdraw] at hbetween

end Rejection

section Series

variable {ω : Type} [WordSource ω]

/-- One draw from a generator that rejects without a limit: the value, and the generator
behind it. -/
inductive Gives : Generator ω → Drawn → Generator ω → Prop
  | timeStep {source : Generator ω} {value : Nat} {words : ω}
      (h : Sampled 64 doubleWord minTimeStep (maxTimeStep - minTimeStep + 1) source.words value
        words) :
      Gives source (.timeStep (UInt64.ofNat value)) ⟨words⟩
  | drift (source : Generator ω) : Gives source (.drift source.drift.1) source.drift.2
  | classifier (source : Generator ω) : Gives source (.classifier source.share.1) source.share.2
  | side (source : Generator ω) : Gives source (.side source.share.1) source.share.2
  | bookSize {source : Generator ω} {value : Nat} {words : ω}
      (h : Sampled 32 word minBookLots (maxBookLots - minBookLots + 1) source.words value words) :
      Gives source (.bookSize (UInt32.ofNat (value * lot))) ⟨words⟩
  | tradeSize {source : Generator ω} {value : Nat} {words : ω}
      (h : Sampled 32 word minTradeSize (maxTradeSize - minTradeSize + 1) source.words value
        words) :
      Gives source (.tradeSize (UInt32.ofNat value)) ⟨words⟩

/-- A series of such draws. -/
inductive GivesAll : Generator ω → List Drawn → Generator ω → Prop
  | nil (source : Generator ω) : GivesAll source [] source
  | cons {source middle after : Generator ω} {first : Drawn} {drawn : List Drawn}
      (hfirst : Gives source first middle) (hrest : GivesAll middle drawn after) :
      GivesAll source (first :: drawn) after

variable {source after : Generator ω} {one : Drawn} {drawn : List Drawn}

theorem Gives.inRange (h : Gives source one after) : one.InRange := by
  cases h with
  | timeStep h => exact timeStepInRange_ofNat (h.between doubleWord_lt (Nat.succ_pos _))
  | drift => exact ⟨(drift_inRange source).isNaN_eq, drift_inRange source⟩
  | classifier => exact share_inRange source
  | side => exact share_inRange source
  | bookSize h => exact bookSizeInRange_ofNat (h.between word_lt (Nat.succ_pos _))
  | tradeSize h => exact tradeSizeInRange_ofNat (h.between word_lt (Nat.succ_pos _))

theorem GivesAll.inRange (h : GivesAll source drawn after) : ∀ one ∈ drawn, one.InRange := by
  induction h with
  | nil => simp
  | cons hfirst _ ih => exact List.forall_mem_cons.mpr ⟨hfirst.inRange, ih⟩

/-- The number of lots that a book size is made of. -/
def lots (source : Generator ω) : Nat :=
  (draw 32 word minBookLots (maxBookLots - minBookLots + 1) attempts source.words).1

theorem lots_mul_lot_lt (source : Generator ω) : source.lots * lot < UInt32.size :=
  lots_mul_lt (draw_between minBookLots _ word_lt (Nat.succ_pos _) attempts source.words)

theorem toNat_bookSize (source : Generator ω) :
    (DrawSource.bookSize source).1.toNat = source.lots * lot := by
  have hfits := source.lots_mul_lot_lt
  rw [congrFun bookSize_eq source]
  unfold lots at hfits ⊢
  generalize draw 32 word minBookLots _ attempts source.words = drawn at hfits ⊢
  exact UInt32.toNat_ofNat_of_lt' hfits

/-- Whatever the words are, the draws of a series give a value each, all of them in range,
and the lots of a book size are multiplied out within 32 bits. The same holds where numbers
are refused without a limit, as far as such a series gives values at all. -/
theorem draws_inRange (source : Generator ω) :
    (∀ kinds : List Draw,
      ((Observed.mk source []).drawAll kinds).drawn.map Drawn.kind = kinds ∧
        ∀ one ∈ ((Observed.mk source []).drawAll kinds).drawn, one.InRange) ∧
    (source.lots * lot < UInt32.size ∧
      (DrawSource.bookSize source).1.toNat = source.lots * lot) ∧
    (∀ (drawn : List Drawn) (after : Generator ω),
      GivesAll source drawn after → ∀ one ∈ drawn, one.InRange) ∧
    ∀ (value : Nat) (words : ω),
      Sampled 32 word minBookLots (maxBookLots - minBookLots + 1) source.words value words →
        value * lot < UInt32.size := by
  refine ⟨?_, ⟨source.lots_mul_lot_lt, toNat_bookSize source⟩, ?_, ?_⟩
  · intro kinds
    obtain ⟨drawn, hdrawn, hkinds, hranges⟩ := steady.drawAll ⟨source, []⟩ trivial kinds
    rw [hdrawn, List.nil_append]
    exact ⟨hkinds, hranges⟩
  · intro drawn after h
    exact h.inRange
  · intro value words h
    exact lots_mul_lt (h.between word_lt (Nat.succ_pos _))

end Series

/-- The first word of this seed is refused for a trade size, and would do for a book size. -/
theorem draws_inRange_refused :
    ((Observed.mk (ofSeed 2) []).drawAll [.side, .tradeSize, .drift]).drawn.map Drawn.kind =
      [.side, .tradeSize, .drift] ∧
    (∃ after, GivesAll (ofSeed 2) [.tradeSize 178] after) ∧ (Drawn.tradeSize 178).InRange ∧
    (∃ after, Sampled 32 word minBookLots (maxBookLots - minBookLots + 1) (ofSeed 2).words 274
      after) ∧ 274 * lot < UInt32.size := by
  have htrade : Sampled 32 word minTradeSize (maxTradeSize - minTradeSize + 1) (ofSeed 2).words 178
      (word (word (ofSeed 2).words).2).2 :=
    .refused (by decide +kernel) (.accepted (by decide +kernel) (by decide +kernel))
  have hseries : GivesAll (ofSeed 2) [.tradeSize 178] ⟨(word (word (ofSeed 2).words).2).2⟩ :=
    .cons (.tradeSize htrade) (.nil _)
  have hlots : Sampled 32 word minBookLots (maxBookLots - minBookLots + 1) (ofSeed 2).words 274
      (word (ofSeed 2).words).2 := .accepted (by decide +kernel) (by decide +kernel)
  obtain ⟨hall, -, hgiven, hfits⟩ := draws_inRange (ofSeed 2)
  exact ⟨(hall _).1, ⟨_, hseries⟩, hgiven _ _ hseries _ List.mem_cons_self, ⟨_, hlots⟩,
    hfits _ _ hlots⟩

end Generator

end MarketTape
