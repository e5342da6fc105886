import MarketTape.Binary64.Basic

/-!
# Magnitudes on the number line

The magnitudes of the ranks are strictly increasing, and from one rank to the
next they grow by the power of two that the scale of the rank names. All later
facts about rounding rest on this one step, and not on how a magnitude is split
into a significand and a scale.
-/

namespace MarketTape.Binary64

-- Powers are the core library's, whichever others are in scope.
attribute [local instance (2000)] instPowNat

theorem binade_pos : 0 < binade := by decide

theorem binade_eq_two_mul : binade = 2 * 2 ^ (51 : Nat) := by decide

theorem one_pos : 0 < one := by
  rw [one]
  generalize 1074 = places
  exact Nat.two_pow_pos places

theorem one_eq_mul {a b : Nat} (h : a + b = 1074) : one = 2 ^ a * 2 ^ b := by
  unfold one
  rw [← h, Nat.pow_add]

/-- Between two powers of two the ranks count the significands one by one. Both
ends belong to the stretch: the upper one is the first rank of the next. -/
theorem units_window (places : Nat) {count : Nat} (low : binade ≤ count)
    (high : count ≤ 2 * binade) :
    units (count + places * binade) = count * 2 ^ places := by
  have hb := binade_pos
  rcases Nat.lt_or_eq_of_le high with below | rfl
  · have hdiv : (count + places * binade) / binade = places + 1 := by
      rw [Nat.add_mul_div_right _ _ hb, Nat.div_eq_of_lt_le (k := 1) (by omega) (by omega)]
      omega
    have hmod : (count + places * binade) % binade = count - binade := by
      rw [Nat.add_mul_mod_self_right, Nat.mod_eq_sub_mod low, Nat.mod_eq_of_lt (by omega)]
    rw [units, Nat.shiftLeft_eq, significand, scale, hdiv, hmod, if_neg (by omega),
      Nat.add_sub_cancel' low, Nat.add_sub_cancel]
  · have hdiv : (2 * binade + places * binade) / binade = places + 2 := by
      rw [← Nat.add_mul, Nat.mul_div_cancel _ hb]
      omega
    have hmod : (2 * binade + places * binade) % binade = 0 := by
      rw [← Nat.add_mul, Nat.mul_mod_left]
    rw [units, Nat.shiftLeft_eq, significand, scale, hdiv, hmod, if_neg (by omega),
      show places + 2 - 1 = places + 1 by omega, Nat.add_zero, Nat.pow_succ']
    exact (Nat.mul_left_comm ..).trans (Nat.mul_assoc ..).symm

/-- The least magnitudes are counted by their ranks. -/
theorem units_eq_self {rank : Nat} (h : rank ≤ 2 * binade) : units rank = rank := by
  rcases Nat.lt_or_ge rank binade with below | low
  · rw [units, significand, if_pos below, scale, Nat.div_eq_of_lt below]
    rfl
  · simpa using units_window 0 low h

/-- The lowest stretch reaches down to zero; every other one starts at a power
of two. -/
theorem units_stretch {places count : Nat} (low : places = 0 ∨ binade ≤ count)
    (high : count ≤ 2 * binade) : units (count + places * binade) = count * 2 ^ places := by
  rcases low with rfl | low
  · rw [Nat.zero_mul, Nat.add_zero, units_eq_self high, Nat.pow_zero, Nat.mul_one]
  · exact units_window places low high

@[simp] theorem units_zero : units 0 = 0 := units_eq_self (Nat.zero_le _)

theorem scale_le_scale {a b : Nat} (h : a ≤ b) : scale a ≤ scale b :=
  Nat.sub_le_sub_right (Nat.div_le_div_right h) 1

theorem scale_window (places : Nat) {count : Nat} (low : binade ≤ count)
    (high : count < 2 * binade) :
    scale (count + places * binade) = places := by
  rw [scale, Nat.add_mul_div_right _ _ binade_pos,
    Nat.div_eq_of_lt_le (k := 1) (by omega) (by omega)]
  omega

/-- Every rank from the first power of two on lies in one stretch between two
powers of two, and the place of that stretch is its scale. -/
theorem eq_window {rank : Nat} (h : binade ≤ rank) :
    ∃ count, binade ≤ count ∧ count < 2 * binade ∧ rank = count + scale rank * binade := by
  have hb := binade_pos
  have hq : 1 ≤ rank / binade := (Nat.one_le_div_iff hb).mpr h
  have hsplit := Nat.div_add_mod' rank binade
  have hmod := Nat.mod_lt rank hb
  refine ⟨binade + rank % binade, Nat.le_add_right _ _, by omega, ?_⟩
  have hs : rank / binade = scale rank + 1 := by rw [scale]; omega
  rw [hs, Nat.add_mul] at hsplit
  omega

/-- One stretch further up the magnitudes are twice as large. -/
theorem units_add_binade {rank : Nat} (h : binade ≤ rank) :
    units (rank + binade) = 2 * units rank := by
  obtain ⟨count, hlow, hhigh, heq⟩ := eq_window h
  have hhere : units rank = count * 2 ^ scale rank := by
    rw [← units_window _ hlow (Nat.le_of_lt hhigh), ← heq]
  have hthere : rank + binade = count + (scale rank + 1) * binade := by
    rw [Nat.succ_mul]
    omega
  rw [hthere, units_window _ hlow (Nat.le_of_lt hhigh), hhere, Nat.pow_succ', Nat.mul_left_comm]

/-- From one rank to the next the magnitude grows by one unit of its scale. -/
theorem units_succ (rank : Nat) : units (rank + 1) = units rank + 2 ^ scale rank := by
  rcases Nat.lt_or_ge rank binade with below | low
  · rw [units_eq_self (by omega), units_eq_self (by omega), scale, Nat.div_eq_of_lt below]
  · obtain ⟨count, hlow, hhigh, heq⟩ := eq_window low
    have hhere : units rank = count * 2 ^ scale rank := by
      rw [← units_window _ hlow (Nat.le_of_lt hhigh), ← heq]
    have hnext : units (rank + 1) = (count + 1) * 2 ^ scale rank := by
      have hin : count + 1 ≤ 2 * binade := hhigh
      rw [← units_window _ (Nat.le_add_right_of_le hlow) hin, Nat.add_right_comm, ← heq]
    rw [hhere, hnext, Nat.succ_mul]

theorem units_lt_units {a b : Nat} (h : a < b) : units a < units b := by
  induction b with
  | zero => omega
  | succ b ih =>
      have hstep : units b < units (b + 1) := by
        rw [units_succ]
        exact Nat.lt_add_of_pos_right (Nat.two_pow_pos _)
      rcases Nat.lt_or_eq_of_le (Nat.lt_succ_iff.mp h) with hlt | rfl
      · exact Nat.lt_trans (ih hlt) hstep
      · exact hstep

theorem units_le_units {a b : Nat} (h : a ≤ b) : units a ≤ units b := by
  rcases Nat.lt_or_eq_of_le h with hlt | rfl
  · exact Nat.le_of_lt (units_lt_units hlt)
  · exact Nat.le_refl _

theorem units_le_iff {a b : Nat} : units a ≤ units b ↔ a ≤ b := by
  constructor
  · intro h
    exact Nat.le_of_not_lt fun hlt => Nat.not_le.mpr (units_lt_units hlt) h
  · exact units_le_units

theorem units_inj {a b : Nat} : units a = units b ↔ a = b := by
  constructor
  · intro h
    exact Nat.le_antisymm (units_le_iff.mp (Nat.le_of_eq h)) (units_le_iff.mp (Nat.le_of_eq h.symm))
  · rintro rfl
    rfl

/-- A count of at most 53 binary digits, moved up by any number of places, is the
magnitude of a rank. -/
theorem exists_units_eq {count : Nat} (h : count ≤ 2 * binade) (places : Nat) :
    ∃ rank, rank ≤ (places + 2) * binade ∧ units rank = count * 2 ^ places := by
  induction places generalizing count with
  | zero =>
      refine ⟨count, by omega, ?_⟩
      rw [units_eq_self h, Nat.pow_zero, Nat.mul_one]
  | succ places ih =>
      rcases Nat.lt_or_ge count binade with below | low
      · obtain ⟨rank, hle, hrank⟩ := ih (show 2 * count ≤ 2 * binade by omega)
        refine ⟨rank, Nat.le_trans hle (Nat.mul_le_mul_right _ (Nat.le_succ _)), ?_⟩
        rw [hrank, Nat.pow_succ', Nat.mul_left_comm, Nat.mul_assoc]
      · refine ⟨count + (places + 1) * binade, ?_, units_window _ low h⟩
        rw [show places + 1 + 2 = (places + 1) + 2 by rfl, Nat.add_mul _ 2]
        omega

/-- A magnitude is a whole number of units of its scale, and less than `2 ^ 53`
of them. -/
theorem two_pow_dvd_units {rank : Nat} (places : Nat) (h : places ≤ scale rank) :
    2 ^ places ∣ units rank := by
  rw [units, Nat.shiftLeft_eq]
  exact Nat.dvd_trans (Nat.pow_dvd_pow 2 h) (Nat.dvd_mul_left _ _)

theorem units_lt {rank : Nat} (places : Nat) (h : scale rank ≤ places) :
    units rank < 2 * binade * 2 ^ places := by
  have hsignificand : significand rank < 2 * binade := by
    have hmod := Nat.mod_lt rank binade_pos
    rw [significand]
    split <;> omega
  rw [units, Nat.shiftLeft_eq]
  exact Nat.lt_of_lt_of_le (Nat.mul_lt_mul_of_pos_right hsignificand (Nat.two_pow_pos _))
    (Nat.mul_le_mul_left _ (Nat.pow_le_pow_right Nat.two_pos h))

end MarketTape.Binary64
