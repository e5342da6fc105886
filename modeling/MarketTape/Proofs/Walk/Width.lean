import MarketTape.Proofs.Walk.Grid

/-!
# The width of a book

With a spread of an even number of cents the book quotes exactly half of them to
either side of the mid. Neither the halving nor the sums of prices leave the grid
of cents: the halving is exact, and what a sum is off by is far below the quarter
of a cent that rounding to cents takes away.
-/

namespace MarketTape

open Binary64

-- Powers are the core library's, whichever others are in scope.
attribute [local instance (2000)] instPowNat

attribute [local irreducible] one units

namespace Price

/-- A price of moderately many cents is off by at most `2 ^ 1045` units. -/
theorem exists_near_cents {n : Nat} (hn : n ≤ 2 ^ (31 : Nat)) :
    ∃ rank : Fin rankCount, ofCents n = .finite false rank ∧
      2 * (n * one) ≤ 100 * (2 * units rank + 2 ^ (1046 : Nat)) ∧
        100 * (2 * units rank) ≤ 2 * (n * one) + 100 * 2 ^ (1046 : Nat) := by
  have hbinade := binade_eq_two_mul
  have hone : one = 2 ^ (28 : Nat) * 2 ^ (1046 : Nat) := one_eq_mul (a := 28) (b := 1046) rfl
  have hcount : n * one ≤ 2 ^ (31 : Nat) * one := Nat.mul_le_mul_right _ hn
  have hcents : n * one ≤ 3 * 2 ^ (51 : Nat) * 2 ^ (1046 : Nat) * 100 := by
    generalize 2 ^ (1046 : Nat) = unit at *
    omega
  obtain ⟨hrank, hscale⟩ :=
    scale_nearestRank_le (show 0 < 100 by omega) (by omega) (by omega) hcents
  have hstep := Nat.pow_le_pow_right Nat.two_pos hscale
  obtain ⟨near, far⟩ := nearestRank_error (n * one) (show 0 < 100 by omega)
  obtain ⟨_, heq⟩ := ofCents_eq_finite (show n ≤ 2 * binade by omega)
  refine ⟨_, heq, ?_⟩
  dsimp only
  omega

/-- Prices of different numbers of cents are different, up to `2 ^ 51` cents. -/
theorem nearestUnits_lt_nearestUnits {m n : Nat} (h : m < n) (hn : n ≤ 2 ^ (51 : Nat)) :
    nearestUnits (m * one) 100 < nearestUnits (n * one) 100 := by
  have hone : one = 2 ^ (8 : Nat) * 2 ^ (1066 : Nat) := one_eq_mul (a := 8) (b := 1066) rfl
  have hunit : 0 < 2 ^ (1066 : Nat) := Nat.two_pow_pos 1066
  have hmul : (m + 1) * one ≤ n * one := Nat.mul_le_mul_right _ h
  rw [Nat.succ_mul] at hmul
  obtain ⟨hn', hscale⟩ := scale_nearestRank_cents hn
  obtain ⟨hm', hscale'⟩ := scale_nearestRank_cents (show m ≤ 2 ^ (51 : Nat) by omega)
  have hstep := Nat.pow_le_pow_right Nat.two_pos hscale
  have hstep' := Nat.pow_le_pow_right Nat.two_pos hscale'
  have hupper := (nearestRank_error (m * one) (show 0 < 100 by omega)).2
  have hlower := (nearestRank_error (n * one) (show 0 < 100 by omega)).1
  rw [nearestUnits, nearestUnits, Nat.min_eq_left (Nat.le_of_lt hm'),
    Nat.min_eq_left (Nat.le_of_lt hn')]
  omega

theorem place_ofCents {cents : Int} (h : cents.natAbs ≤ 2 * binade) :
    (ofCents cents).place =
      signed (decide (cents < 0)) (nearestUnits (cents.natAbs * one) 100) := by
  rw [ofCents_eq h, place_ofQuotient]

theorem ofCents_lt_ofCents {c d : Int} (h : c < d) (hc : c.natAbs ≤ 2 ^ (51 : Nat))
    (hd : d.natAbs ≤ 2 ^ (51 : Nat)) : ofCents c < ofCents d := by
  have hbinade := binade_eq_two_mul
  have hc' : c.natAbs ≤ 2 * binade := by omega
  have hd' : d.natAbs ≤ 2 * binade := by omega
  refine lt_iff.mpr ⟨?_, ?_, ?_⟩
  · rw [ofCents_eq hc']
    exact isNaN_ofQuotient ..
  · rw [ofCents_eq hd']
    exact isNaN_ofQuotient ..
  · rw [place_ofCents hc', place_ofCents hd']
    by_cases hcneg : c < 0
    · have hpos := nearestUnits_lt_nearestUnits (show 0 < c.natAbs by omega) hc
      rw [decide_eq_true hcneg, signed_true]
      by_cases hdneg : d < 0
      · have hlt := nearestUnits_lt_nearestUnits (show d.natAbs < c.natAbs by omega) hc
        rw [decide_eq_true hdneg, signed_true]
        omega
      · rw [decide_eq_false hdneg, signed_false]
        omega
    · have hlt := nearestUnits_lt_nearestUnits (show c.natAbs < d.natAbs by omega) hd
      have hdneg : ¬ d < 0 := by omega
      rw [decide_eq_false hcneg, decide_eq_false hdneg, signed_false, signed_false]
      omega

/-- A count of units close to a number of cents is rounded to it, also after it
was rounded to a price. -/
theorem toCent_ofQuotient_of_near {s : Bool} {count n : Nat} (hn : n ≤ 2 ^ (32 : Nat))
    (low : 8 * (n * one) ≤ 8 * (count * 100) + one)
    (high : 8 * (count * 100) ≤ 8 * (n * one) + one) :
    toCent (ofQuotient s count 1) = ofQuotient s (n * one) 100 := by
  have hbinade := binade_eq_two_mul
  have hone : one = 2 ^ (26 : Nat) * 2 ^ (1048 : Nat) := one_eq_mul (a := 26) (b := 1048) rfl
  have hunit : 0 < 2 ^ (1048 : Nat) := Nat.two_pow_pos 1048
  have hcents : n * one ≤ 2 ^ (32 : Nat) * one := Nat.mul_le_mul_right _ hn
  have hcount : count ≤ 3 * 2 ^ (51 : Nat) * 2 ^ (1048 : Nat) * 1 := by
    generalize 2 ^ (1048 : Nat) = unit at *
    omega
  obtain ⟨hrank, hscale⟩ := scale_nearestRank_le Nat.one_pos (by omega) (by omega) hcount
  have hstep := Nat.pow_le_pow_right Nat.two_pos hscale
  obtain ⟨near, far⟩ := nearestRank_error count Nat.one_pos
  have hlt : nearestRank count 1 < rankCount := by
    unfold rankCount
    omega
  rw [ofQuotient_of_lt hlt]
  apply toCent_of_near (by omega) <;> dsimp only <;> omega

/-- Half of an even number of cents is exact. -/
theorem ofCents_two_mul_div_two {k : Nat} (hpos : 0 < k) (hk : k ≤ 2 ^ (51 : Nat)) :
    ofCents (2 * k : Nat) / 2 = ofCents k := by
  have hbinade := binade_eq_two_mul
  have hone : one = 2 ^ (1000 : Nat) * 2 ^ (74 : Nat) := one_eq_mul (a := 1000) (b := 74) rfl
  have hcount : 1 * one ≤ k * one := Nat.mul_le_mul_right _ hpos
  have hlarge : binade * 100 ≤ k * one := by
    have hunit : 0 < 2 ^ (1000 : Nat) := Nat.two_pow_pos 1000
    generalize 2 ^ (1000 : Nat) = unit at *
    omega
  have hlow : binade ≤ nearestRank (k * one) 100 := by
    apply le_nearestRank (by omega)
    rwa [units_eq_self (by omega)]
  have hdouble : units (nearestRank (2 * k * one) 100) = 2 * units (nearestRank (k * one) 100) := by
    rw [Nat.mul_assoc, nearestRank_two_mul (by omega) hlarge, units_add_binade hlow]
  obtain ⟨_, hwhole⟩ := ofCents_eq_finite (show 2 * k ≤ 2 * binade by omega)
  obtain ⟨_, hpart⟩ := ofCents_eq_finite (show k ≤ 2 * binade by omega)
  obtain ⟨two, htwo, hunits⟩ := exists_ofNat (show 2 ≤ 2 * binade by omega)
  have hne : two.val ≠ 0 := by
    intro hzero
    rw [hzero, units_zero] at hunits
    omega
  change _ / ofNat 2 = _
  rw [hwhole, hpart, htwo, finite_div_finite _ _ _ hne, hunits, hdouble, Bool.bne_false,
    ← ofQuotient_units false _ Nat.one_pos]
  exact ofQuotient_congr (by omega) Nat.one_pos (by ring)

theorem toCent_add {m k : Nat} (hm : m ≤ 2 ^ (31 : Nat)) (hk : k ≤ 2 ^ (31 : Nat))
    (hpos : 0 < m) : toCent (ofCents m + ofCents k) = ofCents (m + k : Nat) := by
  have hbinade := binade_eq_two_mul
  have hone : one = 2 ^ (28 : Nat) * 2 ^ (1046 : Nat) := one_eq_mul (a := 28) (b := 1046) rfl
  have hunit : 0 < 2 ^ (1046 : Nat) := Nat.two_pow_pos 1046
  obtain ⟨a, ha, hma, ham⟩ := exists_near_cents hm
  obtain ⟨b, hb, hkb, hbk⟩ := exists_near_cents hk
  have hcount : 1 * one ≤ m * one := Nat.mul_le_mul_right _ hpos
  have hsum : (units a + units b : Int).natAbs = units a + units b := by omega
  rw [ha, hb, finite_add_finite, signed_false, signed_false, if_neg (by omega),
    decide_eq_false (by omega), hsum, ofCents_natCast (by omega)]
  apply toCent_ofQuotient_of_near (by omega)
  · rw [Nat.add_mul m k]
    omega
  · rw [Nat.add_mul m k]
    omega

theorem toCent_sub {m k : Nat} (hm : m ≤ 2 ^ (31 : Nat)) (hk : k ≤ 2 ^ (31 : Nat)) :
    toCent (ofCents m - ofCents k) = ofCents (m - k : Int) := by
  have hbinade := binade_eq_two_mul
  have hone : one = 2 ^ (28 : Nat) * 2 ^ (1046 : Nat) := one_eq_mul (a := 28) (b := 1046) rfl
  have hunit : 0 < 2 ^ (1046 : Nat) := Nat.two_pow_pos 1046
  obtain ⟨a, ha, hma, ham⟩ := exists_near_cents hm
  obtain ⟨b, hb, hkb, hbk⟩ := exists_near_cents hk
  rw [sub_eq_add_negate, ha, hb, negate_finite, finite_add_finite, signed_not, signed_false,
    signed_false, ofCents_eq (by omega)]
  rcases Nat.lt_trichotomy m k with hlt | rfl | hgt
  · have hmul : (m + 1) * one ≤ k * one := Nat.mul_le_mul_right _ hlt
    have hdiff : (k - m) * one + m * one = k * one := by rw [← Nat.add_mul]; congr 1; omega
    have hneg : (units a + -units b : Int) < 0 := by rw [Nat.succ_mul] at hmul; omega
    rw [if_neg (by omega), decide_eq_true hneg, decide_eq_true (by omega),
      show (m - k : Int).natAbs = k - m by omega]
    apply toCent_ofQuotient_of_near (by omega) <;> omega
  · obtain rfl : a = b := by simpa using ha.symm.trans hb
    rw [if_pos (by omega), Bool.false_and, zero_eq_ofQuotient]
    simpa using toCent_ofQuotient false (Nat.zero_le (2 ^ (51 : Nat)))
  · have hmul : (k + 1) * one ≤ m * one := Nat.mul_le_mul_right _ hgt
    have hdiff : (m - k) * one + k * one = m * one := by rw [← Nat.add_mul]; congr 1; omega
    have hpos : (0 : Int) < units a + -units b := by rw [Nat.succ_mul] at hmul; omega
    rw [if_neg (by omega), decide_eq_false (by omega), decide_eq_false (by omega),
      show (m - k : Int).natAbs = m - k by omega]
    apply toCent_ofQuotient_of_near (by omega) <;> omega

end Price

namespace Walk

variable {walk : Walk} {m k : Nat}

/-- Half of the spread is quoted to either side of the mid. -/
theorem bid_eq_ofCents (hmid : walk.mid = Price.ofCents m)
    (hspread : walk.spread = Price.ofCents (2 * k : Nat)) (hpos : 0 < k)
    (hm : m ≤ 2 ^ (31 : Nat)) (hk : k ≤ 2 ^ (31 : Nat)) :
    walk.book.bid = Price.ofCents (m - k : Int) := by
  change Price.toCent (walk.mid - walk.spread / 2) = _
  rw [hmid, hspread, Price.ofCents_two_mul_div_two hpos (by omega), Price.toCent_sub hm hk]

theorem ask_eq_ofCents (hmid : walk.mid = Price.ofCents m)
    (hspread : walk.spread = Price.ofCents (2 * k : Nat)) (hpos : 0 < k)
    (hm : m ≤ 2 ^ (31 : Nat)) (hk : k ≤ 2 ^ (31 : Nat)) (hm' : 0 < m) :
    walk.book.ask = Price.ofCents (m + k : Nat) := by
  change Price.toCent (walk.mid + walk.spread / 2) = _
  rw [hmid, hspread, Price.ofCents_two_mul_div_two hpos (by omega), Price.toCent_add hm hk hm']

/-- Every positive even number of cents is a spread that keeps the book open. -/
theorem staysOpen_ofCents (hpos : 0 < k) (hk : k ≤ 2 ^ (31 : Nat)) :
    staysOpen (Price.ofCents (2 * k : Nat)) = true := by
  have hbinade := binade_eq_two_mul
  obtain ⟨rank, hrank⟩ := Price.exists_ofCents (show 2 * k ≤ 2 * binade by omega)
  have hzero : (0 : Binary64) = Price.ofCents (0 : Nat) :=
    Price.ofNat_eq_ofCents (n := 0) (Nat.zero_le _)
  rw [staysOpen_iff]
  refine ⟨by rw [hrank]; rfl, ?_, ?_⟩
  · rw [hzero]
    exact Price.ofCents_lt_ofCents (by omega) (by omega) (by omega)
  · intro m hm
    rw [mem_centsOfMids, cents_lowest, cents_highest] at hm
    have hmid : (start (Price.ofCents m) (Price.ofCents (2 * k : Nat))).mid = Price.ofCents m :=
      hold_ofCents (by omega) (by omega)
    rw [bid_eq_ofCents hmid rfl hpos (by omega) hk,
      ask_eq_ofCents hmid rfl hpos (by omega) hk (by omega)]
    exact Price.ofCents_lt_ofCents (by omega) (by omega) (by omega)

end Walk

end MarketTape
