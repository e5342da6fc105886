import MarketTape.Proofs.Binary64.Arithmetic
import MarketTape.Proofs.Draw.Steady

/-!
# Draws of a generator

Whatever the words of a stream are, a generator keeps to the ranges of a tape. A
number below a power of two picks one of `count` values by the high part of its
product with `count`, and this holds of the last attempt as of the first. A drift
grows with its fraction, so that only the two ends of the range are computed.
-/

namespace MarketTape

open Binary64

-- Powers are the core library's, whichever others are in scope.
attribute [local instance (2000)] instPowNat

namespace Generator

variable {ω : Type} [WordSource ω]

/-! ## Numbers -/

theorem word_lt (words : ω) : (word words).1 < 2 ^ 32 := UInt32.toNat_lt _

theorem doubleWord_lt (words : ω) : (doubleWord words).1 < 2 ^ 64 := by
  have hlow := word_lt words
  have hhigh := word_lt (word words).2
  simp only [doubleWord, UInt32.size]
  omega

/-- The high part of a product with `count` lies below `count`. -/
theorem mul_div_lt {value width count : Nat} (hvalue : value < 2 ^ width) (hpos : 0 < count) :
    value * count / 2 ^ width < count := by
  rw [Nat.div_lt_iff_lt_mul (Nat.two_pow_pos width), Nat.mul_comm count]
  exact Nat.mul_lt_mul_of_pos_right hvalue hpos

omit [WordSource ω] in
/-- A draw stays in its range, whether or not it is the last attempt. -/
theorem draw_between {width : Nat} {next : ω → Nat × ω} (low count : Nat)
    (hnext : ∀ words, (next words).1 < 2 ^ width) (hpos : 0 < count) (attempts : Nat) (words : ω) :
    low ≤ (draw width next low count attempts words).1 ∧
      (draw width next low count attempts words).1 < low + count := by
  have hlt (words : ω) := mul_div_lt (hnext words) hpos
  induction attempts generalizing words with
  | zero => exact ⟨Nat.le_add_right _ _, Nat.add_lt_add_left (hlt words) low⟩
  | succ attempts ih =>
      simp only [draw]
      split
      · exact ⟨Nat.le_add_right _ _, Nat.add_lt_add_left (hlt words) low⟩
      · exact ih _

/-! ## Fractions -/

theorem fraction_le_fraction {a b : Nat} (places : Nat) (h : a ≤ b) :
    fraction a places ≤ fraction b places := by
  refine le_iff.mpr ⟨isNaN_ofQuotient .., isNaN_ofQuotient .., ?_⟩
  rw [fraction, fraction, place_ofQuotient, place_ofQuotient]
  exact Int.ofNat_le.mpr
    (monotone_nearestUnits (Nat.two_pow_pos places) (Nat.mul_le_mul_right one h))

theorem exists_driftScale :
    ∃ rank : Fin rankCount, driftScale = .finite false rank ∧ rank.val ≠ 0 := by
  have hfinite : driftScale.isFinite = true := by decide +kernel
  have hpos : driftScale.isNegative = false ∧ driftScale ≠ zero false := by decide +kernel
  obtain ⟨s, rank, heq⟩ := exists_finite hfinite
  rw [heq] at hpos
  obtain ⟨rfl, hzero⟩ := hpos
  exact ⟨rank, heq, fun hrank => hzero (congrArg (Binary64.finite false) (Fin.ext hrank))⟩

/-- A larger fraction never stands for a lower drift. -/
theorem driftAt_le_driftAt {part part' : Binary64} (h : part ≤ part') :
    driftAt part ≤ driftAt part' := by
  obtain ⟨scale, hscale, hne⟩ := exists_driftScale
  obtain ⟨s, drift, hdrift⟩ := exists_finite (x := -Walk.maxDrift) (by decide +kernel)
  have hmul := Binary64.mul_le_mul_right hne h
  obtain ⟨hpart, hpart', -⟩ := le_iff.mp hmul
  rw [driftAt, driftAt, hscale, hdrift]
  refine Binary64.add_le_add hmul (le_self rfl) ?_ ?_
  · rw [isNaN_add_finite, hpart]
  · rw [isNaN_add_finite, hpart']

/-! ## The ranges -/

section Limits

variable {value : Nat}

theorem timeStepInRange_ofNat
    (h : minTimeStep ≤ value ∧ value < minTimeStep + (maxTimeStep - minTimeStep + 1)) :
    TimeStepInRange (UInt64.ofNat value) := by
  rw [minTimeStep, maxTimeStep] at h
  have hvalue : (UInt64.ofNat value).toNat = value :=
    UInt64.toNat_ofNat_of_lt' (Nat.lt_of_lt_of_le h.2 (by decide))
  simp only [TimeStepInRange, hvalue, minTimeStep, maxTimeStep]
  omega

/-- The lots of a book size are multiplied out exactly. -/
theorem lots_mul_lt
    (h : minBookLots ≤ value ∧ value < minBookLots + (maxBookLots - minBookLots + 1)) :
    value * lot < UInt32.size := by
  rw [minBookLots, maxBookLots] at h
  rw [lot, UInt32.size]
  omega

theorem bookSizeInRange_ofNat
    (h : minBookLots ≤ value ∧ value < minBookLots + (maxBookLots - minBookLots + 1)) :
    BookSizeInRange (UInt32.ofNat (value * lot)) := by
  simp only [BookSizeInRange, UInt32.toNat_ofNat_of_lt' (lots_mul_lt h)]
  rw [minBookLots, maxBookLots] at h
  refine ⟨Nat.dvd_mul_left _ _, Nat.mul_le_mul_right _ h.1, Nat.mul_le_mul_right _ ?_⟩
  rw [maxBookLots]
  omega

theorem tradeSizeInRange_ofNat
    (h : minTradeSize ≤ value ∧ value < minTradeSize + (maxTradeSize - minTradeSize + 1)) :
    TradeSizeInRange (UInt32.ofNat value) := by
  rw [minTradeSize, maxTradeSize] at h
  have hvalue : (UInt32.ofNat value).toNat = value :=
    UInt32.toNat_ofNat_of_lt' (Nat.lt_of_lt_of_le h.2 (by decide))
  simp only [TradeSizeInRange, hvalue, minTradeSize, maxTradeSize]
  omega

end Limits

omit [WordSource ω] in
theorem of_fst {α : Type} {p : α → Prop} {drawn : α × Generator ω} {value : α}
    {source : Generator ω} (hp : p drawn.1) (h : drawn = (value, source)) : p value ∧ True := by
  rw [h] at hp
  exact ⟨hp, trivial⟩

variable (source : Generator ω)

theorem share_inRange : ShareInRange (share source).1 := by
  have hvalue : (doubleWord source.words).1 >>> 11 ≤ 2 ^ 53 - 1 := by
    have hlt := doubleWord_lt source.words
    rw [Nat.shiftRight_eq_div_pow]
    omega
  have hzero : 0 ≤ fraction 0 53 := by decide +kernel
  have hone : fraction (2 ^ 53 - 1) 53 < 1 := by decide +kernel
  constructor
  · exact Binary64.le_trans hzero (fraction_le_fraction 53 (Nat.zero_le _))
  · exact Binary64.lt_of_le_of_lt (fraction_le_fraction 53 hvalue) hone

theorem drift_inRange : DriftInRange (DrawSource.drift source).1 := by
  have hvalue : (doubleWord source.words).1 >>> 12 ≤ binade - 1 := by
    have hlt := doubleWord_lt source.words
    rw [Nat.shiftRight_eq_div_pow, binade]
    omega
  have hlow : -Walk.maxDrift ≤ driftAt (fraction 0 52) := by decide +kernel
  have hhigh : driftAt topFraction ≤ Walk.maxDrift := by decide +kernel
  constructor
  · exact Binary64.le_trans hlow (driftAt_le_driftAt (fraction_le_fraction 52 (Nat.zero_le _)))
  · exact Binary64.le_trans (driftAt_le_driftAt (fraction_le_fraction 52 hvalue)) hhigh

-- These equate functions, not their values: two functions are compared as they stand, but
-- an applied one may be unfolded attempt by attempt.
theorem timeStep_eq : DrawSource.timeStep (σ := Generator ω) = fun source =>
    match draw 64 doubleWord minTimeStep (maxTimeStep - minTimeStep + 1) attempts source.words with
    | (value, words) => (UInt64.ofNat value, ⟨words⟩) := rfl

theorem bookSize_eq : DrawSource.bookSize (σ := Generator ω) = fun source =>
    match draw 32 word minBookLots (maxBookLots - minBookLots + 1) attempts source.words with
    | (value, words) => (UInt32.ofNat (value * lot), ⟨words⟩) := rfl

theorem tradeSize_eq : DrawSource.tradeSize (σ := Generator ω) = fun source =>
    match draw 32 word minTradeSize (maxTradeSize - minTradeSize + 1) attempts source.words with
    | (value, words) => (UInt32.ofNat value, ⟨words⟩) := rfl

theorem timeStep_inRange : TimeStepInRange (DrawSource.timeStep source).1 := by
  have hdraw := draw_between minTimeStep (maxTimeStep - minTimeStep + 1)
    doubleWord_lt (Nat.succ_pos _) attempts source.words
  have hdrawn := congrFun timeStep_eq source
  rw [hdrawn]
  generalize draw 64 doubleWord minTimeStep _ attempts source.words = drawn at hdraw ⊢
  obtain ⟨value, words⟩ := drawn
  exact timeStepInRange_ofNat hdraw

theorem bookSize_inRange : BookSizeInRange (DrawSource.bookSize source).1 := by
  have hdraw := draw_between minBookLots (maxBookLots - minBookLots + 1)
    word_lt (Nat.succ_pos _) attempts source.words
  have hdrawn := congrFun bookSize_eq source
  rw [hdrawn]
  generalize draw 32 word minBookLots _ attempts source.words = drawn at hdraw ⊢
  obtain ⟨value, words⟩ := drawn
  exact bookSizeInRange_ofNat hdraw

theorem tradeSize_inRange : TradeSizeInRange (DrawSource.tradeSize source).1 := by
  have hdraw := draw_between minTradeSize (maxTradeSize - minTradeSize + 1)
    word_lt (Nat.succ_pos _) attempts source.words
  have hdrawn := congrFun tradeSize_eq source
  rw [hdrawn]
  generalize draw 32 word minTradeSize _ attempts source.words = drawn at hdraw ⊢
  obtain ⟨value, words⟩ := drawn
  exact tradeSizeInRange_ofNat hdraw

/-- Whatever the words are, a generator keeps to the ranges of a tape. -/
theorem steady : Steady fun _ : Generator ω => True where
  timeStep _ h := of_fst (timeStep_inRange _) h
  drift _ h := of_fst (drift_inRange _) h
  classifier _ h := of_fst (share_inRange _) h
  side _ h := of_fst (share_inRange _) h
  bookSize _ h := of_fst (bookSize_inRange _) h
  tradeSize _ h := of_fst (tradeSize_inRange _) h

end Generator

end MarketTape
