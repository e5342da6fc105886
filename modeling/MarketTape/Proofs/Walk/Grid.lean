import MarketTape.Proofs.Price.Cents
import MarketTape.Walk

/-!
# Mids on the grid of cents

Wherever a walk starts and however it drifts, its mid is one of the 2001 whole
numbers of cents from 90 to 110, the very numbers that `Walk.staysOpen` looks at.
A spread that passes there therefore keeps every book of every walk open, and a
spread that fails already fails at the start of some walk.
-/

namespace MarketTape

open Binary64

-- Powers are the core library's, whichever others are in scope.
attribute [local instance (2000)] instPowNat

attribute [local irreducible] one units

namespace Book

/-- A book is open exactly if its bid lies below its ask. -/
theorem isOpen_iff (book : Book) : book.isOpen = true ↔ book.bid < book.ask := by
  rw [isOpen, decide_eq_true_iff, width, sub_pos_iff]

end Book

namespace Walk

/-- The walk behind some drifts. -/
def follow (walk : Walk) (drifts : List Binary64) : Walk := drifts.foldl step walk

/-- The book of the walk as it stands and the book behind each further drift. -/
def books (walk : Walk) : List Binary64 → List Book
  | [] => [walk.book]
  | drift :: drifts => walk.book :: (walk.step drift).books drifts

/-- The mid is a whole number of cents within the bounds. -/
def OnGrid (walk : Walk) : Prop :=
  ∃ n : Nat, 9000 ≤ n ∧ n ≤ 11000 ∧ walk.mid = Price.ofCents n

/-! ## The mid -/

theorem clamp_between {x low high : Binary64} (hx : x.isNaN = false) (h : low ≤ high) :
    low ≤ x.clamp low high ∧ x.clamp low high ≤ high := by
  obtain ⟨hlow, hhigh, hle⟩ := le_iff.mp h
  rw [clamp]
  split
  · exact ⟨le_self hlow, h⟩
  · rename_i hnotbelow
    split
    · exact ⟨h, le_self hhigh⟩
    · rename_i hnotabove
      rw [lt_iff] at hnotbelow hnotabove
      refine ⟨le_iff.mpr ⟨hlow, hx, ?_⟩, le_iff.mpr ⟨hx, hhigh, ?_⟩⟩
      · exact Int.not_lt.mp fun hlt => hnotbelow ⟨hx, hlow, hlt⟩
      · exact Int.not_lt.mp fun hlt => hnotabove ⟨hhigh, hx, hlt⟩

/-- A number between the bounds, by its units. -/
theorem exists_finite_of_between {x : Binary64} (hlow : lowest ≤ x) (hhigh : x ≤ highest) :
    ∃ rank : Fin rankCount, x = .finite false rank ∧
      90 * one ≤ units rank ∧ units rank ≤ 110 * one := by
  obtain ⟨low, hlow', hunits⟩ := exists_ofNat (show 90 ≤ 2 * binade by decide)
  obtain ⟨high, hhigh', hunits'⟩ := exists_ofNat (show 110 ≤ 2 * binade by decide)
  have hone := one_pos
  change ofNat 90 ≤ x at hlow
  change x ≤ ofNat 110 at hhigh
  rw [hlow'] at hlow
  rw [hhigh'] at hhigh
  have hfinite : x ≠ .infinity false := by
    rintro rfl
    cases eq_infinity_of_le hhigh
  obtain ⟨s, a, t, b, ha, rfl, hle⟩ := exists_finite_of_le hlow (by simp) hfinite
  obtain ⟨rfl, rfl⟩ := Binary64.finite.inj ha
  have hle' := (le_iff.mp hhigh).2.2
  simp only [place, signed_false] at hle hle'
  cases t with
  | false =>
      simp only [signed_false] at hle hle'
      exact ⟨b, rfl, by omega, by omega⟩
  | true =>
      simp only [signed_true] at hle
      omega

/-- The cents of a mid are as exact as they can be. -/
theorem le_two_binade {n : Nat} (h : n ≤ 11000) : n ≤ 2 * binade :=
  Nat.le_trans h (by decide)

theorem lowest_eq : lowest = Price.ofCents (9000 : Nat) :=
  Price.ofNat_eq_ofCents (n := 90) (by decide)

theorem highest_eq : highest = Price.ofCents (11000 : Nat) :=
  Price.ofNat_eq_ofCents (n := 110) (by decide)

theorem cents_lowest : Price.cents lowest = 9000 := by
  rw [lowest_eq]
  exact Price.cents_ofCents (by decide)

theorem cents_highest : Price.cents highest = 11000 := by
  rw [highest_eq]
  exact Price.cents_ofCents (by decide)

/-- A spread is checked at the cents from those of the lowest mid to those of the highest. -/
theorem mem_centsOfMids {n : Nat} :
    n ∈ centsOfMids ↔ Price.cents lowest ≤ n ∧ n ≤ Price.cents highest := by
  rw [centsOfMids, List.mem_range'_1, cents_lowest, cents_highest]
  omega

theorem lowest_le_highest : lowest ≤ highest := by
  rw [lowest_eq, highest_eq]
  exact Price.ofCents_le_ofCents (by omega) (le_two_binade (Nat.le_refl _))

/-- A held mid is a whole number of cents within the bounds. -/
theorem exists_hold {mid : Binary64} (h : mid.isNaN = false) :
    ∃ n : Nat, 9000 ≤ n ∧ n ≤ 11000 ∧ hold mid = Price.ofCents n := by
  obtain ⟨hlow, hhigh⟩ := clamp_between h lowest_le_highest
  obtain ⟨rank, heq, hleast, hmost⟩ := exists_finite_of_between hlow hhigh
  obtain ⟨low, -, hlowUnits⟩ := exists_ofNat (show 9000 ≤ 2 * binade by decide)
  obtain ⟨high, -, hhighUnits⟩ := exists_ofNat (show 11000 ≤ 2 * binade by decide)
  have hge : low ≤ nearestRank (units rank * 100) 1 := le_nearestRank Nat.one_pos (by omega)
  have hle : nearestRank (units rank * 100) 1 ≤ high := nearestRank_le Nat.one_pos (by omega)
  have hwholeGe := Price.nearestWhole_le_nearestWhole (units_le_units hge)
  have hwholeLe := Price.nearestWhole_le_nearestWhole (units_le_units hle)
  rw [hlowUnits, Price.nearestWhole_mul_one] at hwholeGe
  rw [hhighUnits, Price.nearestWhole_mul_one] at hwholeLe
  refine ⟨_, hwholeGe, hwholeLe, ?_⟩
  rw [hold, heq, Price.toCent_finite (Nat.lt_of_le_of_lt hle high.isLt),
    Price.ofCents_natCast (le_two_binade hwholeLe)]

/-- A mid on the grid is held as it is. -/
theorem hold_ofCents {n : Nat} (hlow : 9000 ≤ n) (hhigh : n ≤ 11000) :
    hold (Price.ofCents n) = Price.ofCents n := by
  have hnotBelow : ¬ (Price.ofCents n : Binary64) < lowest := by
    rw [lowest_eq]
    exact not_lt_of_le (Price.ofCents_le_ofCents hlow (le_two_binade hhigh))
  have hnotAbove : ¬ highest < (Price.ofCents n : Binary64) := by
    rw [highest_eq]
    exact not_lt_of_le (Price.ofCents_le_ofCents hhigh (le_two_binade (Nat.le_refl _)))
  rw [hold, clamp, if_neg hnotBelow, if_neg hnotAbove, Price.toCent_ofCents (by omega)]

/-! ## Walks -/

theorem onGrid_start {mid : Binary64} (h : mid.isNaN = false) (spread : Binary64) :
    (start mid spread).OnGrid := exists_hold h

/-- One step keeps the mid on the grid. -/
theorem OnGrid.step {walk : Walk} (h : walk.OnGrid) {drift : Binary64}
    (hd : drift.isNaN = false) : (walk.step drift).OnGrid := by
  obtain ⟨n, -, hhigh, hmid⟩ := h
  obtain ⟨rank, hrank⟩ := Price.exists_ofCents (le_two_binade hhigh)
  apply exists_hold
  rw [hmid, hrank, isNaN_finite_add, hd]

/-- A walk on the grid is one of the walks that a spread is checked on. -/
theorem OnGrid.exists_start {walk : Walk} (h : walk.OnGrid) :
    ∃ n ∈ centsOfMids, walk = start (Price.ofCents n) walk.spread := by
  obtain ⟨n, hlow, hhigh, hmid⟩ := h
  refine ⟨n, ?_, ?_⟩
  · rw [mem_centsOfMids, cents_lowest, cents_highest]
    omega
  · rw [start, hold_ofCents hlow hhigh, ← hmid]

/-- What the check of a spread looks at. -/
theorem staysOpen_iff {spread : Binary64} :
    staysOpen spread = true ↔ spread.isFinite = true ∧ 0 < spread ∧ ∀ n ∈ centsOfMids,
      (start (Price.ofCents n) spread).book.bid < (start (Price.ofCents n) spread).book.ask := by
  simp only [staysOpen, Bool.and_eq_true, decide_eq_true_iff, List.all_eq_true, Book.isOpen_iff,
    and_assoc]

/-- A spread that passes the check keeps the book of every walk on the grid open. -/
theorem OnGrid.isOpen_book {walk : Walk} (h : walk.OnGrid)
    (hopen : staysOpen walk.spread = true) : walk.book.isOpen = true := by
  obtain ⟨n, hn, hwalk⟩ := h.exists_start
  rw [hwalk, Book.isOpen_iff]
  exact (staysOpen_iff.mp hopen).2.2 n hn

end Walk

end MarketTape
