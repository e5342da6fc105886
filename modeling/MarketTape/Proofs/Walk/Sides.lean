import MarketTape.Proofs.Price.Error
import MarketTape.Proofs.Walk.Drift

/-!
# How far the sides of a book lie from the mid

The ask lies half a spread above the mid and the bid half a spread below it, whatever
the spread is, as long as that half can be counted in cents: then each side is rounded
by half a cent and by little more than a roundoff. A half that cannot be counted is so
large that the mid does not matter, and sends both sides to infinity.
-/

namespace MarketTape

open Binary64

attribute [local irreducible] one units

/-- How many cents the ask stands above the bid, each counted by itself. -/
def Book.centsWide (book : Book) : Int := Price.cents book.ask - Price.cents book.bid

namespace Walk

variable {walk : Walk}

/-! ## The mid and the half spread -/

theorem OnGrid.isFinite_mid (h : walk.OnGrid) : walk.mid.isFinite = true := by
  obtain ⟨n, -, hhigh, hmid⟩ := h
  obtain ⟨rank, hrank⟩ := Price.exists_ofCents (le_two_binade hhigh)
  rw [hmid, hrank]
  rfl

theorem OnGrid.toRat_mid_between (h : walk.OnGrid) :
    90 ≤ walk.mid.toRat ∧ walk.mid.toRat ≤ 110 := by
  have hfinite := h.isFinite_mid
  obtain ⟨n, hlow, hhigh, hmid⟩ := h
  have hleast : lowest ≤ walk.mid := by
    rw [lowest_eq, hmid]
    exact Price.ofCents_le_ofCents hlow (le_two_binade hhigh)
  have hmost : walk.mid ≤ highest := by
    rw [highest_eq, hmid]
    exact Price.ofCents_le_ofCents hhigh (le_two_binade (Nat.le_refl _))
  have hbelow := toRat_le_toRat (isFinite_ofNat (n := 90) (by decide)) hfinite hleast
  have habove := toRat_le_toRat hfinite (isFinite_ofNat (n := 110) (by decide)) hmost
  rw [toRat_ofNat (by decide)] at hbelow habove
  exact ⟨hbelow, habove⟩

theorem OnGrid.abs_mid_le (h : walk.OnGrid) : |walk.mid.toRat| ≤ 110 := by
  obtain ⟨hlow, hhigh⟩ := h.toRat_mid_between
  exact abs_le.mpr ⟨by linarith, hhigh⟩

theorem isFinite_half {spread : Binary64} (h : spread.isFinite = true) :
    (spread / 2).isFinite = true := isFinite_div_ofNat h Nat.two_pos (by decide)

theorem rounds_half {spread : Binary64} (h : spread.isFinite = true) :
    (spread / 2).Rounds (spread.toRat / 2) := by
  have hfinite : (2 : Binary64).isFinite = true := isFinite_ofNat (by decide)
  have htwo : (2 : Binary64).toRat = 2 := toRat_ofNat (by decide)
  have hrounds := rounds_div h hfinite (by rw [htwo]; norm_num) (isFinite_half h)
  rwa [htwo] at hrounds

/-! ## The distance of a side from the mid -/

/-- What is added to the mid for a side. -/
def offset (walk : Walk) : Side → Binary64
  | .bid => (walk.spread / 2).negate
  | .ask => walk.spread / 2

/-- How far off the mid a side should be. -/
def exactOffset (walk : Walk) : Side → ℚ
  | .bid => -(walk.spread.toRat / 2)
  | .ask => walk.spread.toRat / 2

/-- Half of the spread can be counted in cents. -/
def Quotable (spread : Binary64) : Prop := (spread / 2 * 100).isFinite = true

theorem price_book (walk : Walk) (side : Side) :
    walk.book.price side = Price.toCent (walk.mid + walk.offset side) := by
  cases side <;> rfl

theorem rounds_offset (h : walk.spread.isFinite = true) (side : Side) :
    (walk.offset side).Rounds (walk.exactOffset side) := by
  cases side with
  | bid => exact (rounds_half h).negate
  | ask => exact rounds_half h

theorem abs_exactOffset (walk : Walk) (side : Side) :
    |walk.exactOffset side| = |walk.spread.toRat| / 2 := by
  have hhalf : |walk.spread.toRat / 2| = |walk.spread.toRat| / 2 := by
    rw [abs_div, abs_two]
  cases side with
  | bid => rw [exactOffset, abs_neg, hhalf]
  | ask => exact hhalf

theorem quotable_iff (walk : Walk) (side : Side) :
    Quotable walk.spread ↔ (walk.offset side * 100).isFinite = true := by
  cases side with
  | bid => rw [offset, Price.isFinite_negate_mul_hundred, Quotable]
  | ask => exact Iff.rfl

theorem quotable_of_le {spread : Binary64} (h : spread.isFinite = true)
    (hle : |spread.toRat| ≤ 2 ^ 90) : Quotable spread := by
  have hhalf := rounds_half h
  have hsize := hhalf.abs_le
  rw [abs_div, abs_two] at hsize
  exact Price.isFinite_mul_hundred hhalf.finite (by linarith)

/-! ## The price of a side -/

/-- A side is finite exactly if half of the spread can be counted in cents: where the
sum with the mid cannot be counted, the mid is too small to matter in it. -/
theorem OnGrid.isFinite_price_iff (h : walk.OnGrid) (hspread : walk.spread.isFinite = true)
    (side : Side) : (walk.book.price side).isFinite = true ↔ Quotable walk.spread := by
  have hoffset := (rounds_offset hspread side).finite
  have hmid := h.isFinite_mid
  have hsize := h.abs_mid_le
  have hlow := h.toRat_mid_between.1
  rw [price_book, Price.isFinite_toCent_iff, quotable_iff walk side]
  generalize walk.offset side = offset at hoffset ⊢
  rcases le_total (2 ^ 90) |offset.toRat| with hvast | hmoderate
  · rw [add_eq_of_vast hmid hoffset (by linarith) (by linarith) hvast]
  · have hexact : |walk.mid.toRat + offset.toRat| ≤ 2 ^ 91 := by
      calc |walk.mid.toRat + offset.toRat|
          ≤ |walk.mid.toRat| + |offset.toRat| := abs_add_le _ _
        _ ≤ 2 ^ 91 := by linarith
    have hsum := isFinite_add hmid hoffset (by linarith)
    have hrounded := (rounds_add hmid hoffset hsum).abs_le
    exact iff_of_true (Price.isFinite_mul_hundred hsum (by linarith))
      (Price.isFinite_mul_hundred hoffset (by linarith))

/-- A side in whole cents and as a price, by where it should be. -/
theorem OnGrid.exists_cents_price (h : walk.OnGrid) (hspread : walk.spread.isFinite = true)
    (hroom : Quotable walk.spread) (side : Side) :
    ∃ n : ℤ,
      |(n : ℚ) - 100 * (walk.mid.toRat + walk.exactOffset side)| ≤
        1 / 2 + (|walk.spread.toRat| + 112) / 2 ^ 45 ∧
      |(walk.book.price side).toRat - (walk.mid.toRat + walk.exactOffset side)| ≤
        1 / 200 + (|walk.spread.toRat| + 112) / 2 ^ 50 ∧
      (n.natAbs ≤ 2 ^ 51 → Price.cents (walk.book.price side) = n) := by
  obtain ⟨hoffset, hnear⟩ := rounds_offset hspread side
  have hsize := abs_exactOffset walk side
  have hmid := h.abs_mid_le
  have hcount := Price.isFinite_toCent_iff.mp
    (price_book walk side ▸ (h.isFinite_price_iff hspread side).mpr hroom)
  rw [price_book]
  generalize walk.offset side = offset at *
  generalize walk.exactOffset side = exact at *
  obtain ⟨n, hcents, hprice, hwhole⟩ := Price.exists_cents_add h.isFinite_mid hoffset hcount
  have htrace := underflow_le
  rw [roundoff, hsize] at hnear
  have hsum : |walk.mid.toRat + offset.toRat| ≤
      |walk.spread.toRat| / 2 + |offset.toRat - exact| + 110 := by
    calc |walk.mid.toRat + offset.toRat|
        ≤ |walk.mid.toRat| + |offset.toRat| := abs_add_le _ _
      _ ≤ |walk.spread.toRat| / 2 + |offset.toRat - exact| + 110 := by
        have hgap := abs_sub_abs_le_abs_sub offset.toRat exact
        linarith
  have hpos := abs_nonneg walk.spread.toRat
  refine ⟨n, ?_, ?_, hwhole⟩
  · calc |(n : ℚ) - 100 * (walk.mid.toRat + exact)|
        = |(n - 100 * (walk.mid.toRat + offset.toRat)) + 100 * (offset.toRat - exact)| := by ring_nf
      _ ≤ |n - 100 * (walk.mid.toRat + offset.toRat)| + |100 * (offset.toRat - exact)| :=
        abs_add_le _ _
      _ ≤ 1 / 2 + (|walk.spread.toRat| + 112) / 2 ^ 45 := by
        rw [abs_mul, abs_of_pos (show (0 : ℚ) < 100 by norm_num)]
        linarith
  · calc |(Price.toCent (walk.mid + offset)).toRat - (walk.mid.toRat + exact)|
        = |((Price.toCent (walk.mid + offset)).toRat - (walk.mid.toRat + offset.toRat)) +
            (offset.toRat - exact)| := by ring_nf
      _ ≤ |(Price.toCent (walk.mid + offset)).toRat - (walk.mid.toRat + offset.toRat)| +
            |offset.toRat - exact| := abs_add_le _ _
      _ ≤ 1 / 200 + (|walk.spread.toRat| + 112) / 2 ^ 50 := by linarith

/-! ## Both sides -/

/-- With a spread of an even number of cents, half of them lie to either side of the mid. -/
theorem AtCent.sides_eq {m k : Nat} (h : walk.AtCent m) (hpos : 1 ≤ k) (hk : k ≤ 10 ^ 9)
    (hspread : walk.spread = Price.ofCents (2 * k : Nat)) :
    walk.book.bid = Price.ofCents (m - k : Int) ∧ walk.book.ask = Price.ofCents (m + k : Nat) ∧
      walk.book.centsWide = 2 * k := by
  obtain ⟨hlow, hhigh, hmid⟩ := h
  have hbid := bid_eq_ofCents hmid hspread hpos (by omega) (by omega)
  have hask := ask_eq_ofCents hmid hspread hpos (by omega) (by omega) (by omega)
  refine ⟨hbid, hask, ?_⟩
  rw [Book.centsWide, hbid, hask, Price.cents_ofCents (by omega), Price.cents_ofCents (by omega)]
  omega

/-- A side of a moderate spread is counted in cents half a cent and a trace from where it
should be. -/
theorem OnGrid.cents_price_near (h : walk.OnGrid) (hspread : walk.spread.isFinite = true)
    (hle : |walk.spread.toRat| ≤ 10 ^ 6) (side : Side) :
    |(Price.cents (walk.book.price side) : ℚ) -
      100 * (walk.mid.toRat + walk.exactOffset side)| ≤ 1 / 2 + 1 / (2 * 10 ^ 6) := by
  have hroom := quotable_of_le hspread (by linarith)
  obtain ⟨n, hnear, -, hcents⟩ := h.exists_cents_price hspread hroom side
  have hcount : |(n : ℚ)| ≤ 2 ^ 51 := by
    have hmid := h.abs_mid_le
    have hoffset := abs_exactOffset walk side
    have hsum := abs_add_le walk.mid.toRat (walk.exactOffset side)
    have hgap := abs_sub_abs_le_abs_sub (n : ℚ) (100 * (walk.mid.toRat + walk.exactOffset side))
    rw [abs_mul, abs_of_pos (show (0 : ℚ) < 100 by norm_num)] at hgap
    linarith
  rw [← Int.cast_abs, Int.abs_eq_natAbs, Int.cast_natCast] at hcount
  rw [hcents (by exact_mod_cast hcount)]
  linarith

/-- A book is as many cents wide as its spread, but for half a cent on either side and a
trace. -/
theorem OnGrid.width_near (h : walk.OnGrid) (hspread : walk.spread.isFinite = true)
    (hle : |walk.spread.toRat| ≤ 10 ^ 6) :
    |(walk.book.centsWide : ℚ) - 100 * walk.spread.toRat| ≤ 1 + 1 / 10 ^ 6 := by
  obtain ⟨hbidLow, hbidHigh⟩ := abs_le.mp (h.cents_price_near hspread hle .bid)
  obtain ⟨haskLow, haskHigh⟩ := abs_le.mp (h.cents_price_near hspread hle .ask)
  simp only [exactOffset, Book.price_bid] at hbidLow hbidHigh
  simp only [exactOffset, Book.price_ask] at haskLow haskHigh
  rw [Book.centsWide, Int.cast_sub, abs_le]
  constructor <;> linarith

/-- How far the rounding of a price may take it off the exact bounds. -/
def slack (spread : ℚ) : ℚ := 1 / 200 + (spread + 112) / 2 ^ 50

/-- For moderate spreads the slack is half a cent and a trace. -/
theorem slack_le {spread : ℚ} (h : spread ≤ 10 ^ 9) : slack spread ≤ 1 / 200 + 1 / 10 ^ 6 := by
  rw [slack]
  linarith

/-- Prices that are finite at all lie where the exact bounds of the walk put them. -/
theorem OnGrid.price_between (h : walk.OnGrid) (hspread : walk.spread.isFinite = true)
    (hpos : 0 < walk.spread) (hroom : Quotable walk.spread) (side : Side) :
    90 - walk.spread.toRat / 2 - slack walk.spread.toRat ≤ (walk.book.price side).toRat ∧
      (walk.book.price side).toRat ≤ 110 + walk.spread.toRat / 2 + slack walk.spread.toRat := by
  obtain ⟨n, -, hnear, -⟩ := h.exists_cents_price hspread hroom side
  obtain ⟨hlow, hhigh⟩ := h.toRat_mid_between
  have hpositive := (pos_iff_toRat_pos hspread).mp hpos
  obtain ⟨hleast, hmost⟩ := abs_le.mp (abs_exactOffset walk side).le
  rw [abs_of_pos hpositive] at hleast hmost hnear
  obtain ⟨hbelow, habove⟩ := abs_le.mp hnear
  rw [slack]
  constructor <;> linarith

theorem exists_finite_half {spread : Binary64} (hspread : spread.isFinite = true)
    (hpos : 0 < spread) : ∃ rank : Fin rankCount, spread / 2 = .finite false rank := by
  obtain ⟨s, a, rfl⟩ := exists_finite hspread
  obtain ⟨two, htwo, hne⟩ := exists_two
  have hfinite := isFinite_half hspread
  have hplace := (lt_iff.mp hpos).2.2
  rw [place_zero] at hplace
  cases s with
  | true =>
      rw [place, signed_true] at hplace
      omega
  | false =>
      rw [htwo, finite_div_finite _ _ _ hne, Bool.bne_false] at hfinite ⊢
      exact ⟨_, ofQuotient_of_lt (isFinite_ofQuotient_iff.mp hfinite)⟩

/-- Where half of the spread cannot be counted in cents, both sides are infinite. -/
theorem OnGrid.price_infinite (h : walk.OnGrid) (hspread : walk.spread.isFinite = true)
    (hpos : 0 < walk.spread) (hroom : ¬ Quotable walk.spread) :
    walk.book.bid = .infinity true ∧ walk.book.ask = .infinity false := by
  obtain ⟨rank, hhalf⟩ := exists_finite_half hspread hpos
  have hmid := h.isFinite_mid
  have hsize := h.abs_mid_le
  have hlow := h.toRat_mid_between.1
  have hside (side : Side) {s : Bool} (hoffset : walk.offset side = .finite s rank) :
      walk.book.price side = .infinity s := by
    rw [quotable_iff walk side, hoffset] at hroom
    have hvast : 2 ^ 90 ≤ |(finite s rank).toRat| := by
      by_contra hnot
      exact hroom (Price.isFinite_mul_hundred rfl (by linarith))
    rw [price_book, hoffset, add_eq_of_vast hmid rfl (by linarith) (by linarith) hvast]
    exact Price.toCent_of_not_isFinite (Bool.eq_false_iff.mpr hroom)
  constructor
  · apply hside .bid
    rw [offset, hhalf, negate_finite, Bool.not_false]
  · exact hside .ask hhalf

/-- A spread of which the half cannot be counted in cents passes the check. -/
theorem staysOpen_of_not_quotable {spread : Binary64} (hspread : spread.isFinite = true)
    (hpos : 0 < spread) (hroom : ¬ Quotable spread) : staysOpen spread = true := by
  apply staysOpen_of_open
  · rintro rfl
    cases hspread
  · intro n hn
    rw [mem_centsOfMids, cents_lowest, cents_highest] at hn
    have hgrid : (start (Price.ofCents n) spread).OnGrid :=
      ⟨n, by omega, by omega, hold_ofCents (by omega) (by omega)⟩
    obtain ⟨hbid, hask⟩ := hgrid.price_infinite hspread hpos hroom
    rw [hbid, hask]
    decide +kernel

end Walk

end MarketTape
