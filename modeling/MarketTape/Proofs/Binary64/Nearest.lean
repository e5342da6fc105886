import MarketTape.Proofs.Binary64.Rank
import Mathlib.Tactic.Linarith
import Mathlib.Tactic.Ring

/-!
# Rounding to the nearest magnitude

`lt_nearestRank_iff` says when the rounding of a quotient passes a rank: the
quotient lies beyond the middle between that rank and the next, or on it if the
next rank is the even one. Everything that is used of the rounding follows from
this one equivalence: it is monotone, depends on the value of the quotient
alone, keeps magnitudes as they are, and errs by at most half a step.
-/

namespace MarketTape.Binary64

-- Powers are the core library's, whichever others are in scope.
attribute [local instance (2000)] instPowNat

/-! ## Whole numbers -/

/-- Rounding to a whole number passes a count if the quotient lies beyond the
middle behind it, or on that middle and the count is odd. -/
theorem lt_roundHalfEven_iff {num den count : Nat} (hd : 0 < den) :
    count < roundHalfEven num den ↔
      (2 * count + 1) * den < 2 * num ∨
        (2 * count + 1) * den = 2 * num ∧ count % 2 = 1 := by
  have hsplit := Nat.div_add_mod' num den
  have hmod := Nat.mod_lt num hd
  have hodd : (2 * count + 1) * den = 2 * (count * den) + den := by ring
  rw [hodd, roundHalfEven]
  generalize num / den = below at *
  generalize num % den = rest at *
  have hresult : ∀ result, (result = below ∨ result = below + 1) → count ≠ below →
      (count < result ↔ count < below) := by
    intro result hr hne
    omega
  rcases Nat.lt_trichotomy count below with hlt | rfl | hgt
  · have hmul : (count + 1) * den ≤ below * den := Nat.mul_le_mul_right _ hlt
    rw [Nat.succ_mul] at hmul
    rw [hresult _ (by split <;> [skip; split] <;> omega) (by omega)]
    omega
  · split
    · omega
    · split <;> omega
  · have hmul : (below + 1) * den ≤ count * den := Nat.mul_le_mul_right _ hgt
    rw [Nat.succ_mul] at hmul
    rw [hresult _ (by split <;> [skip; split] <;> omega) (by omega)]
    omega

/-- A quotient less than half away from a whole number is rounded to it. -/
theorem roundHalfEven_eq {num den count : Nat} (hd : 0 < den)
    (low : 2 * (count * den) < 2 * num + den) (high : 2 * num < 2 * (count * den) + den) :
    roundHalfEven num den = count := by
  apply Nat.le_antisymm
  · apply Nat.le_of_not_lt
    intro hlt
    have hodd : (2 * count + 1) * den = 2 * (count * den) + den := by ring
    rcases (lt_roundHalfEven_iff hd).mp hlt with h | ⟨h, -⟩ <;> omega
  · cases count with
    | zero => exact Nat.zero_le _
    | succ count =>
        apply (lt_roundHalfEven_iff hd).mpr
        have hodd : (2 * count + 1) * den + den = 2 * ((count + 1) * den) := by ring
        left
        omega

theorem le_roundHalfEven {num den count : Nat} (hd : 0 < den) (h : count * den ≤ num) :
    count ≤ roundHalfEven num den := by
  cases count with
  | zero => exact Nat.zero_le _
  | succ count =>
      apply (lt_roundHalfEven_iff hd).mpr
      have hodd : (2 * count + 1) * den + den = 2 * ((count + 1) * den) := by ring
      left
      omega

theorem roundHalfEven_le {num den count : Nat} (hd : 0 < den) (h : num ≤ count * den) :
    roundHalfEven num den ≤ count := by
  apply Nat.le_of_not_lt
  intro hlt
  have hodd : (2 * count + 1) * den = 2 * (count * den) + den := by ring
  rcases (lt_roundHalfEven_iff hd).mp hlt with h | ⟨h, -⟩ <;> omega

/-- Rounding to a whole number errs by at most a half. -/
theorem roundHalfEven_error (num : Nat) {den : Nat} (hd : 0 < den) :
    2 * num ≤ 2 * (roundHalfEven num den * den) + den ∧
      2 * (roundHalfEven num den * den) ≤ 2 * num + den := by
  have hnot := mt (lt_roundHalfEven_iff hd).mpr (Nat.lt_irrefl (roundHalfEven num den))
  have hodd (count : Nat) : (2 * count + 1) * den = 2 * (count * den) + den := by ring
  rw [hodd] at hnot
  refine ⟨by omega, ?_⟩
  cases hcount : roundHalfEven num den with
  | zero => omega
  | succ count =>
      have hlt : count < roundHalfEven num den := by omega
      have hreach := (lt_roundHalfEven_iff hd).mp hlt
      rw [hodd] at hreach
      rw [Nat.succ_mul count den]
      omega

/-! ## Magnitudes -/

/-- The quotient lies in the stretch that the rounding works on, and only the
lowest stretch is open below. -/
private theorem places_spec (num den : Nat) :
    num / den < 2 * binade * 2 ^ ((num / den).log2 - 52) ∧
      ((num / den).log2 - 52 = 0 ∨ binade * 2 ^ ((num / den).log2 - 52) ≤ num / den) := by
  generalize num / den = whole
  have htop : whole < 2 ^ (whole.log2 + 1) := Nat.lt_log2_self
  have hwide : 2 * binade * 2 ^ (whole.log2 - 52) = 2 ^ (53 + (whole.log2 - 52)) := by
    rw [Nat.pow_add, show 2 * binade = 2 ^ (53 : Nat) by decide]
  refine ⟨?_, ?_⟩
  · rw [hwide]
    exact Nat.lt_of_lt_of_le htop (Nat.pow_le_pow_right Nat.two_pos (by omega))
  · rcases Nat.lt_or_ge whole.log2 53 with hlow | hhigh
    · left
      omega
    · right
      have hne : whole ≠ 0 := by
        rintro rfl
        simp at hhigh
      rw [binade, ← Nat.pow_add, show 52 + (whole.log2 - 52) = whole.log2 by omega]
      exact Nat.log2_self_le hne

/-- The rounding of a quotient passes a rank if the quotient lies beyond the
middle between the rank and the next, or on that middle and the rank is odd. -/
theorem lt_nearestRank_iff {num den rank : Nat} (hd : 0 < den) :
    rank < nearestRank num den ↔
      den * (units rank + units (rank + 1)) < 2 * num ∨
        den * (units rank + units (rank + 1)) = 2 * num ∧ rank % 2 = 1 := by
  obtain ⟨hhigh, hlow⟩ := places_spec num den
  have hbelow : den * (num / den) ≤ num := Nat.mul_div_le num den
  have habove : num < den * (num / den + 1) := Nat.lt_mul_div_succ num hd
  rw [nearestRank, Nat.shiftLeft_eq]
  generalize (num / den).log2 - 52 = places at *
  generalize num / den = whole at *
  have hpow : 0 < den * 2 ^ places := Nat.mul_pos hd (Nat.two_pow_pos _)
  have htop : num < den * (2 * binade * 2 ^ places) :=
    Nat.lt_of_lt_of_le habove (Nat.mul_le_mul_left den hhigh)
  have hbottom : places = 0 ∨ den * (binade * 2 ^ places) ≤ num :=
    hlow.imp_right fun h => Nat.le_trans (Nat.mul_le_mul_left den h) hbelow
  have hle : roundHalfEven num (den * 2 ^ places) ≤ 2 * binade :=
    roundHalfEven_le hpow (Nat.le_of_lt (by linarith))
  have hge : places = 0 ∨ binade ≤ roundHalfEven num (den * 2 ^ places) :=
    hbottom.imp_right fun h => le_roundHalfEven hpow (by linarith)
  have hupper : units (2 * binade + places * binade) = 2 * binade * 2 ^ places :=
    units_window places (by omega) (Nat.le_refl _)
  -- The rank lies above the stretch of the quotient, in it, or below it.
  rcases Nat.lt_or_ge rank (2 * binade + places * binade) with hunder | hover
  · by_cases hin : places = 0 ∨ binade + places * binade ≤ rank
    · obtain ⟨count, rfl⟩ : ∃ count, rank = count + places * binade :=
        ⟨rank - places * binade, by rcases hin with rfl | h <;> omega⟩
      have hcount : places = 0 ∨ binade ≤ count := hin.imp_right fun h => by omega
      have hnext : places = 0 ∨ binade ≤ count + 1 := hcount.imp_right fun h => by omega
      have heven : places * binade = 2 * (places * 2 ^ 51) := by
        rw [binade_eq_two_mul, Nat.mul_left_comm]
      rw [Nat.add_lt_add_iff_right, lt_roundHalfEven_iff hpow, Nat.add_right_comm,
        units_stretch hcount (by omega), units_stretch hnext (by omega), heven,
        Nat.add_mul_mod_self_left,
        show (2 * count + 1) * (den * 2 ^ places) =
          den * (count * 2 ^ places + (count + 1) * 2 ^ places) by ring]
    · have hlt : rank < binade + places * binade := by omega
      have hle : units (rank + 1) ≤ binade * 2 ^ places :=
        units_window places (Nat.le_refl _) (by omega) ▸ units_le_units hlt
      have hstep : units rank < units (rank + 1) := units_lt_units (Nat.lt_succ_self _)
      have hmul : den * (units rank + units (rank + 1)) < den * (2 * (binade * 2 ^ places)) :=
        Nat.mul_lt_mul_of_pos_left (by omega) hd
      have hlarge : den * (binade * 2 ^ places) ≤ num := hbottom.resolve_left (by omega)
      constructor
      · intro _
        left
        linarith
      · have hk := hge.resolve_left (by omega)
        omega
  · have hfar : 2 * binade * 2 ^ places ≤ units rank := hupper ▸ units_le_units hover
    have hnext : units rank ≤ units (rank + 1) := units_le_units (Nat.le_succ _)
    have hmul : den * (2 * (2 * binade * 2 ^ places)) ≤ den * (units rank + units (rank + 1)) :=
      Nat.mul_le_mul_left den (by omega)
    constructor
    · omega
    · rintro (h | ⟨h, -⟩) <;> linarith

/-- A larger quotient is not rounded to a smaller magnitude. -/
theorem nearestRank_le_nearestRank {num den num' den' : Nat} (hd : 0 < den) (hd' : 0 < den')
    (h : num * den' ≤ num' * den) : nearestRank num den ≤ nearestRank num' den' := by
  apply Nat.le_of_not_lt
  intro hlt
  apply Nat.lt_irrefl (nearestRank num' den')
  apply (lt_nearestRank_iff hd').mpr
  generalize nearestRank num' den' = rank at *
  generalize hsum : units rank + units (rank + 1) = sum
  rcases hsum ▸ (lt_nearestRank_iff hd).mp hlt with hbeyond | ⟨hmiddle, hodd⟩
  · left
    have hscaled : den' * (den * sum) < den' * (2 * num) := Nat.mul_lt_mul_of_pos_left hbeyond hd'
    exact Nat.lt_of_mul_lt_mul_left (a := den) (by linarith)
  · have hscaled : den' * (den * sum) = den' * (2 * num) := by rw [hmiddle]
    have hle : den' * sum ≤ 2 * num' := Nat.le_of_mul_le_mul_left (by linarith) hd
    exact (Nat.lt_or_eq_of_le hle).imp_right fun heq => ⟨heq, hodd⟩

/-- The rounding depends on the value of the quotient alone. -/
theorem nearestRank_congr {num den num' den' : Nat} (hd : 0 < den) (hd' : 0 < den')
    (h : num * den' = num' * den) : nearestRank num den = nearestRank num' den' :=
  Nat.le_antisymm (nearestRank_le_nearestRank hd hd' (Nat.le_of_eq h))
    (nearestRank_le_nearestRank hd' hd (Nat.le_of_eq h.symm))

/-- A quotient strictly between the middles on both sides of a rank is rounded to
that rank. -/
theorem nearestRank_eq {num den rank : Nat} (hd : 0 < den)
    (low : ∀ below, rank = below + 1 → den * (units below + units rank) < 2 * num)
    (high : 2 * num < den * (units rank + units (rank + 1))) : nearestRank num den = rank := by
  apply Nat.le_antisymm
  · apply Nat.le_of_not_lt
    intro hlt
    rcases (lt_nearestRank_iff hd).mp hlt with h | ⟨h, -⟩ <;> omega
  · cases rank with
    | zero => exact Nat.zero_le _
    | succ below => exact (lt_nearestRank_iff hd).mpr (.inl (low below rfl))

/-- A magnitude is rounded to itself. -/
theorem nearestRank_units (rank : Nat) {den : Nat} (hd : 0 < den) :
    nearestRank (units rank * den) den = rank := by
  apply nearestRank_eq hd
  · rintro below rfl
    have hstep : units below < units (below + 1) := units_lt_units (Nat.lt_succ_self _)
    nlinarith
  · have hstep : units rank < units (rank + 1) := units_lt_units (Nat.lt_succ_self _)
    nlinarith

theorem le_nearestRank {num den rank : Nat} (hd : 0 < den) (h : units rank * den ≤ num) :
    rank ≤ nearestRank num den := by
  rw [← nearestRank_units rank hd]
  exact nearestRank_le_nearestRank hd hd (Nat.mul_le_mul_right den h)

theorem nearestRank_le {num den rank : Nat} (hd : 0 < den) (h : num ≤ units rank * den) :
    nearestRank num den ≤ rank := by
  rw [← nearestRank_units rank hd]
  exact nearestRank_le_nearestRank hd hd (Nat.mul_le_mul_right den h)

/-- Doubling a quotient that does not lie in the lowest stretch doubles what it is
rounded to. -/
theorem nearestRank_two_mul {num den : Nat} (hd : 0 < den) (h : binade * den ≤ num) :
    nearestRank (2 * num) den = nearestRank num den + binade := by
  have hbinade := binade_eq_two_mul
  have hlow : binade ≤ nearestRank num den := by
    apply le_nearestRank hd
    rwa [units_eq_self (by omega)]
  -- A rank is passed by the quotient exactly if its double is passed by the doubled one.
  have hpass {rank : Nat} (hr : binade ≤ rank) :
      rank + binade < nearestRank (2 * num) den ↔ rank < nearestRank num den := by
    have hsum : den * (2 * units rank + 2 * units (rank + 1)) =
        2 * (den * (units rank + units (rank + 1))) := by ring
    rw [lt_nearestRank_iff hd, lt_nearestRank_iff hd, Nat.add_right_comm, units_add_binade hr,
      units_add_binade (by omega), hsum]
    omega
  apply Nat.le_antisymm
  · exact Nat.not_lt.mp (mt (hpass hlow).mp (Nat.lt_irrefl _))
  · rcases Nat.lt_or_eq_of_le hlow with hlt | heq
    · have hbelow := (hpass (show binade ≤ nearestRank num den - 1 by omega)).mpr (by omega)
      omega
    · rw [← heq]
      apply le_nearestRank hd
      rw [units_eq_self (by omega), Nat.add_mul]
      omega

/-- The rounding errs by at most half a step at the scale of its result. -/
theorem nearestRank_error (num : Nat) {den : Nat} (hd : 0 < den) :
    2 * num ≤ den * (2 * units (nearestRank num den) + 2 ^ scale (nearestRank num den)) ∧
      den * (2 * units (nearestRank num den)) ≤
        2 * num + den * 2 ^ scale (nearestRank num den) := by
  have hnot := mt (lt_nearestRank_iff hd).mpr (Nat.lt_irrefl (nearestRank num den))
  rw [not_or] at hnot
  refine ⟨?_, ?_⟩
  · have habove := hnot.1
    rw [units_succ] at habove
    rw [show 2 * units (nearestRank num den) = units (nearestRank num den) +
      units (nearestRank num den) by omega, Nat.add_assoc]
    omega
  · cases hrank : nearestRank num den with
    | zero => simp
    | succ below =>
        have hlt : below < nearestRank num den := by omega
        have hreach : den * (units below + units (below + 1)) ≤ 2 * num := by
          rcases (lt_nearestRank_iff hd).mp hlt with h | ⟨h, -⟩ <;> omega
        have hscale : 2 ^ scale below ≤ 2 ^ scale (below + 1) :=
          Nat.pow_le_pow_right Nat.two_pos (scale_le_scale (Nat.le_succ _))
        have hmul := Nat.mul_le_mul_left den hscale
        rw [units_succ] at hreach ⊢
        linarith

/-- A quotient that stays in or below a stretch is rounded with steps no wider
than those of that stretch. -/
theorem scale_nearestRank_le {num den count places : Nat} (hd : 0 < den) (low : binade ≤ count)
    (high : count < 2 * binade) (h : num ≤ count * 2 ^ places * den) :
    nearestRank num den ≤ count + places * binade ∧ scale (nearestRank num den) ≤ places := by
  rw [← units_window places low (Nat.le_of_lt high)] at h
  have hle := nearestRank_le hd h
  refine ⟨hle, ?_⟩
  rw [← scale_window places low high]
  exact scale_le_scale hle

end MarketTape.Binary64
