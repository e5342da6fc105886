import MarketTape.Proofs.Binary64.Arithmetic
import Mathlib.Algebra.Order.Field.Basic
import Mathlib.Algebra.Order.Field.Rat
import Mathlib.Tactic.FieldSimp

/-!
# Rounding errors

A number `Rounds` an exact value if it is finite and no further from the value than
one rounding takes it: by a part `roundoff` of the value, and near zero by
`underflow`. Sums, products and quotients of finite numbers round the exact result
wherever they are finite themselves, which they are for all results that are not
vast. How far a whole calculation errs is added up from these steps.
-/

namespace MarketTape.Binary64

-- Powers are the core library's, whichever others are in scope.
attribute [local instance (2000)] instPowNat

attribute [local irreducible] one units

variable {x y : Binary64} {exact : ℚ}

/-! ## Ranks -/

/-- A step of the number line is a part of the magnitude at its foot, or one unit. -/
theorem binade_mul_two_pow_scale_le (rank : Nat) :
    binade * 2 ^ scale rank ≤ units rank + binade := by
  rcases Nat.lt_or_ge rank binade with below | low
  · rw [scale, Nat.div_eq_of_lt below, Nat.pow_zero, Nat.mul_one]
    exact Nat.le_add_left _ _
  · obtain ⟨count, hlow, hhigh, heq⟩ := eq_window low
    have hunits : units rank = count * 2 ^ scale rank := by
      rw [← units_window _ hlow (Nat.le_of_lt hhigh), ← heq]
    rw [hunits]
    exact Nat.le_add_right_of_le (Nat.mul_le_mul_right _ hlow)

/-- The rounding errs by at most half a step at the foot of the stretch that the
quotient lies in. -/
theorem nearestRank_relative_error (num : Nat) {den : Nat} (hd : 0 < den) :
    2 * binade * num ≤
        2 * binade * (den * units (nearestRank num den)) + (num + den * binade) ∧
      2 * binade * (den * units (nearestRank num den)) ≤
        2 * binade * num + (num + den * binade) := by
  obtain ⟨near, -⟩ := nearestRank_error num hd
  have hstep (rank : Nat) : binade * (den * 2 ^ scale rank) ≤ den * units rank + den * binade := by
    have hmul := Nat.mul_le_mul_left den (binade_mul_two_pow_scale_le rank)
    linarith
  constructor
  · rcases Nat.le_total num (den * units (nearestRank num den)) with hle | hge
    · exact Nat.le_add_right_of_le (Nat.mul_le_mul_left _ hle)
    · have hmul := Nat.mul_le_mul_left binade near
      have hfoot := hstep (nearestRank num den)
      linarith
  · rcases Nat.le_total (den * units (nearestRank num den)) num with hle | hge
    · exact Nat.le_add_right_of_le (Nat.mul_le_mul_left _ hle)
    · -- A quotient that was rounded up lies in the step below its rank.
      cases hrank : nearestRank num den with
      | zero => simp
      | succ below =>
          have hlt : below < nearestRank num den := by omega
          have hreach : den * (units below + units (below + 1)) ≤ 2 * num := by
            rcases (lt_nearestRank_iff hd).mp hlt with h | ⟨h, -⟩ <;> omega
          have hfoot := hstep below
          have hunits : den * units below ≤ den * units (below + 1) :=
            Nat.mul_le_mul_left den (units_le_units (Nat.le_succ below))
          rw [units_succ] at hreach hunits ⊢
          have hmul := Nat.mul_le_mul_left binade hreach
          linarith

/-! ## Exact values -/

theorem one_cast_pos : (0 : ℚ) < one := Nat.cast_pos.mpr one_pos

theorem toRat_finite (s : Bool) (rank : Fin rankCount) :
    (finite s rank).toRat = signed s (units rank) / one := Rat.mkRat_eq_div _ _

theorem abs_toRat_finite (s : Bool) (rank : Fin rankCount) :
    |(finite s rank).toRat| = units rank / one := by
  rw [toRat_finite, abs_div, abs_of_pos one_cast_pos]
  cases s <;> simp

theorem toRat_eq_place_div (h : x.isFinite = true) : x.toRat = x.place / one := by
  obtain ⟨s, rank, rfl⟩ := exists_finite h
  exact toRat_finite s rank

theorem toRat_le_toRat (hx : x.isFinite = true) (hy : y.isFinite = true) (h : x ≤ y) :
    x.toRat ≤ y.toRat := by
  rw [toRat_eq_place_div hx, toRat_eq_place_div hy]
  exact div_le_div_of_nonneg_right (Int.cast_le.mpr (le_iff.mp h).2.2) one_cast_pos.le

theorem pos_iff_toRat_pos (h : x.isFinite = true) : 0 < x ↔ 0 < x.toRat := by
  obtain ⟨s, a, rfl⟩ := exists_finite h
  rw [lt_iff, place_zero, toRat_finite, div_pos_iff_of_pos_right one_cast_pos, Int.cast_pos]
  exact ⟨fun h => h.2.2, fun h => ⟨isNaN_zero, rfl, h⟩⟩

theorem toRat_negate (x : Binary64) : x.negate.toRat = -x.toRat := by
  cases x with
  | nan => rfl
  | infinity s => rfl
  | finite s rank =>
      rw [negate_finite, toRat_finite, toRat_finite, signed_not, Int.cast_neg, neg_div]

theorem isFinite_negate (x : Binary64) : x.negate.isFinite = x.isFinite := by
  cases x <;> rfl

theorem isFinite_ofNat {n : Nat} (h : n ≤ 2 * binade) : (ofNat n).isFinite = true := by
  obtain ⟨rank, heq, -⟩ := exists_ofNat h
  rw [heq]
  rfl

theorem toRat_ofNat {n : Nat} (h : n ≤ 2 * binade) : (ofNat n).toRat = n := by
  obtain ⟨rank, heq, hunits⟩ := exists_ofNat h
  rw [heq, toRat_finite, hunits, signed_false, Int.cast_natCast, Nat.cast_mul,
    mul_div_cancel_right₀ _ one_cast_pos.ne']

theorem exists_one_eq : ∃ places, one = 2 ^ places := by
  obtain ⟨places, hplaces⟩ : ∃ places, 0 + places = 1074 := ⟨1074, rfl⟩
  refine ⟨places, ?_⟩
  rw [one_eq_mul hplaces, Nat.pow_zero, Nat.one_mul]

/-- A vast number is not moved by a term of moderate size. -/
theorem add_eq_of_vast (hx : x.isFinite = true) (hy : y.isFinite = true) (hne : x.toRat ≠ 0)
    (hmoderate : |x.toRat| ≤ 2 ^ 10) (hvast : 2 ^ 90 ≤ |y.toRat|) : x + y = y := by
  obtain ⟨s, a, rfl⟩ := exists_finite hx
  obtain ⟨t, b, rfl⟩ := exists_finite hy
  rw [abs_toRat_finite, div_le_iff₀ one_cast_pos] at hmoderate
  rw [abs_toRat_finite, le_div_iff₀ one_cast_pos] at hvast
  have ha : units a ≤ 2 ^ 10 * one := by exact_mod_cast hmoderate
  have hb : 2 ^ 90 * one ≤ units b := by exact_mod_cast hvast
  have hone := Binary64.one_pos
  have hpos : 0 < units a := by
    apply Nat.pos_of_ne_zero
    intro hzero
    apply hne
    rw [toRat_finite, hzero]
    cases s <;> simp
  obtain ⟨places, hplaces⟩ := exists_one_eq
  have hscale : places + 13 ≤ scale b.val := by
    apply Nat.le_of_not_lt
    intro hlt
    have hunits : units b.val < 2 ^ 90 * one := by
      calc units b.val
          < 2 * binade * 2 ^ (places + 12) := units_lt _ (Nat.le_of_lt_succ hlt)
        _ = 2 * binade * 2 ^ 12 * one := by
          rw [Nat.pow_add, ← hplaces, Nat.mul_comm one, ← Nat.mul_assoc]
        _ ≤ 2 ^ 90 * one := Nat.mul_le_mul_right _ (by decide)
    exact Nat.not_lt.mpr hb hunits
  have hstep := Nat.pow_le_pow_right Nat.two_pos hscale
  rw [Nat.pow_add, ← hplaces] at hstep
  exact finite_add_eq hpos (by omega)

/-! ## One rounding -/

/-- The part of an exact value that one rounding loses at most. -/
def roundoff : ℚ := 1 / 2 ^ 53

/-- What one rounding loses at most near zero, half of the least unit. -/
def underflow : ℚ := 1 / (2 * one)

/-- A number is finite, and as near to an exact value as one rounding leaves it. -/
structure Rounds (x : Binary64) (exact : ℚ) : Prop where
  finite : x.isFinite = true
  near : |x.toRat - exact| ≤ |exact| * roundoff + underflow

theorem underflow_pos : 0 < underflow := by
  have hone := one_cast_pos
  unfold underflow
  positivity

theorem underflow_le : underflow ≤ 1 / 2 ^ 100 := by
  have hone : one = 2 ^ (100 : Nat) * 2 ^ (974 : Nat) := one_eq_mul (a := 100) (b := 974) rfl
  have hlarge : 2 ^ (100 : Nat) ≤ one := by
    have hunit : 0 < 2 ^ (974 : Nat) := Nat.two_pow_pos 974
    generalize 2 ^ (974 : Nat) = unit at *
    rw [hone]
    exact Nat.le_mul_of_pos_right _ hunit
  have hcast : (2 ^ 100 : ℚ) ≤ one := by exact_mod_cast hlarge
  unfold underflow
  exact one_div_le_one_div_of_le (by positivity) (by linarith)

/-- A rounded number is of the size of its exact value. -/
theorem Rounds.abs_le (h : x.Rounds exact) : |x.toRat| ≤ 2 * |exact| + 1 := by
  have hnear := h.near
  have htrace := underflow_le
  have hgap := abs_sub_abs_le_abs_sub x.toRat exact
  have hpos := abs_nonneg exact
  rw [roundoff] at hnear
  linarith

theorem Rounds.negate (h : x.Rounds exact) : x.negate.Rounds (-exact) where
  finite := by rw [isFinite_negate, h.finite]
  near := by
    rw [toRat_negate, abs_neg, ← neg_add', abs_neg, ← sub_eq_add_neg]
    exact h.near

/-! ## Rounded quotients -/

section Quotients

variable {s t : Bool} {num den : Nat}

theorem isFinite_ofQuotient_iff :
    (ofQuotient s num den).isFinite = true ↔ nearestRank num den < rankCount := by
  rcases Nat.lt_or_ge (nearestRank num den) rankCount with hlt | hge
  · rw [ofQuotient_of_lt hlt]
    exact iff_of_true rfl hlt
  · rw [ofQuotient_of_le hge]
    exact iff_of_false Bool.false_ne_true (Nat.not_lt.mpr hge)

/-- Quotients up to `2 ^ 100` are rounded to finite numbers. -/
theorem isFinite_ofQuotient_of_le (hd : 0 < den) (h : num ≤ 2 ^ (100 : Nat) * one * den) :
    (ofQuotient s num den).isFinite = true := by
  have hbinade := binade_pos
  have hsplit (above below : Nat) (hone : one = 2 ^ (52 : Nat) * 2 ^ below) :
      2 ^ above * one = binade * 2 ^ (above + below) := by
    rw [hone, Nat.pow_add]
    exact Nat.mul_left_comm ..
  rw [hsplit 100 1022 (one_eq_mul (a := 52) (b := 1022) rfl)] at h
  obtain ⟨hrank, -⟩ := scale_nearestRank_le hd (Nat.le_refl binade) (by omega) h
  rw [isFinite_ofQuotient_iff]
  unfold rankCount
  omega

theorem isFinite_ofQuotient (hd : 0 < den) (h : (num / (den * one) : ℚ) ≤ 2 ^ 100) :
    (ofQuotient s num den).isFinite = true := by
  have hone := one_cast_pos
  have hden : (0 : ℚ) < den := Nat.cast_pos.mpr hd
  apply isFinite_ofQuotient_of_le hd
  rw [div_le_iff₀ (by positivity)] at h
  have hcast : num ≤ 2 ^ (100 : Nat) * (den * one) := by exact_mod_cast h
  rwa [Nat.mul_assoc, Nat.mul_comm one]

theorem cast_signed (s : Bool) (count : Nat) : (signed s count : ℚ) = signed s 1 * count := by
  cases s <;> simp

theorem abs_signed_one (s : Bool) : |(signed s 1 : ℚ)| = 1 := by
  cases s <;> simp

theorem signed_bne_one (s t : Bool) : (signed (s != t) 1 : ℚ) = signed s 1 * signed t 1 := by
  cases s <;> cases t <;> simp

/-- Where a rounded quotient is finite, it rounds the exact one. -/
theorem rounds_ofQuotient (hd : 0 < den) (h : (ofQuotient s num den).isFinite = true) :
    (ofQuotient s num den).Rounds (signed s num / (den * one)) := by
  refine ⟨h, ?_⟩
  obtain ⟨near, far⟩ := nearestRank_relative_error num hd
  have hone := one_cast_pos
  have hden : (0 : ℚ) < den := Nat.cast_pos.mpr hd
  rw [ofQuotient_of_lt (isFinite_ofQuotient_iff.mp h), toRat_finite, cast_signed, cast_signed s num,
    mul_div_assoc, mul_div_assoc, ← mul_sub, abs_mul, abs_mul, abs_signed_one, one_mul, one_mul,
    roundoff, underflow]
  dsimp only
  generalize units (nearestRank num den) = rounded at *
  have hnear : (2 * 2 ^ 52 * num : ℚ) ≤ 2 * 2 ^ 52 * (den * rounded) + (num + den * 2 ^ 52) := by
    exact_mod_cast near
  have hfar : (2 * 2 ^ 52 * (den * rounded) : ℚ) ≤ 2 * 2 ^ 52 * num + (num + den * 2 ^ 52) := by
    exact_mod_cast far
  have hquotient :
      (rounded / one - num / (den * one) : ℚ) = (den * rounded - num) / (den * one) := by
    field_simp
  have hbound : (num / (den * one) * (1 / 2 ^ 53) + 1 / (2 * one) : ℚ) =
      (num + den * 2 ^ 52) / 2 ^ 53 / (den * one) := by
    field_simp
  rw [abs_of_nonneg (show (0 : ℚ) ≤ num / (den * one) by positivity), hquotient, hbound, abs_div,
    abs_of_pos (show (0 : ℚ) < den * one by positivity)]
  apply div_le_div_of_nonneg_right _ (by positivity)
  rw [abs_le]
  constructor <;> linarith

end Quotients

/-! ## Operations -/

theorem rounds_add (hx : x.isFinite = true) (hy : y.isFinite = true)
    (h : (x + y).isFinite = true) : (x + y).Rounds (x.toRat + y.toRat) := by
  obtain ⟨s, a, rfl⟩ := exists_finite hx
  obtain ⟨t, b, rfl⟩ := exists_finite hy
  have hsum : (signed s (units a) / one + signed t (units b) / one : ℚ) =
      (signed s (units a) + signed t (units b) : ℤ) / one := by
    rw [← add_div, Int.cast_add]
  rw [toRat_finite, toRat_finite, hsum]
  rw [finite_add_finite] at h ⊢
  generalize signed s (units a) + signed t (units b) = sum at h ⊢
  split
  · rename_i hzero
    refine ⟨rfl, ?_⟩
    have hunderflow := underflow_pos
    rw [hzero, zero, toRat_finite, units_zero]
    cases s <;> cases t <;> simp [hunderflow.le]
  · rename_i hne
    rw [if_neg hne] at h
    have hrounds := rounds_ofQuotient Nat.one_pos h
    rwa [signed_natAbs, Nat.cast_one, one_mul] at hrounds

/-- Sums up to `2 ^ 100` are finite. -/
theorem isFinite_add (hx : x.isFinite = true) (hy : y.isFinite = true)
    (h : |x.toRat + y.toRat| ≤ 2 ^ 100) : (x + y).isFinite = true := by
  obtain ⟨s, a, rfl⟩ := exists_finite hx
  obtain ⟨t, b, rfl⟩ := exists_finite hy
  rw [toRat_finite, toRat_finite, ← add_div, ← Int.cast_add, abs_div,
    abs_of_pos one_cast_pos] at h
  rw [finite_add_finite]
  split
  · rfl
  · apply isFinite_ofQuotient Nat.one_pos
    rwa [Nat.cast_natAbs, Int.cast_abs, Nat.cast_one, one_mul]

theorem rounds_mul (hx : x.isFinite = true) (hy : y.isFinite = true)
    (h : (x * y).isFinite = true) : (x * y).Rounds (x.toRat * y.toRat) := by
  obtain ⟨s, a, rfl⟩ := exists_finite hx
  obtain ⟨t, b, rfl⟩ := exists_finite hy
  rw [finite_mul_finite] at h ⊢
  have hrounds := rounds_ofQuotient one_pos h
  rw [cast_signed, signed_bne_one, Nat.cast_mul] at hrounds
  rw [toRat_finite, toRat_finite, cast_signed, cast_signed t, div_mul_div_comm, mul_mul_mul_comm]
  exact hrounds

/-- Products up to `2 ^ 100` are finite. -/
theorem isFinite_mul (hx : x.isFinite = true) (hy : y.isFinite = true)
    (h : |x.toRat * y.toRat| ≤ 2 ^ 100) : (x * y).isFinite = true := by
  obtain ⟨s, a, rfl⟩ := exists_finite hx
  obtain ⟨t, b, rfl⟩ := exists_finite hy
  rw [toRat_finite, toRat_finite, cast_signed, cast_signed t, div_mul_div_comm, mul_mul_mul_comm,
    abs_div, abs_mul, abs_mul, abs_signed_one, abs_signed_one, ← Nat.cast_mul, ← Nat.cast_mul,
    Nat.abs_cast, Nat.abs_cast, one_mul, one_mul, Nat.cast_mul one] at h
  rw [finite_mul_finite]
  exact isFinite_ofQuotient one_pos h

theorem rounds_div (hx : x.isFinite = true) (hy : y.isFinite = true) (hne : y.toRat ≠ 0)
    (h : (x / y).isFinite = true) : (x / y).Rounds (x.toRat / y.toRat) := by
  obtain ⟨s, a, rfl⟩ := exists_finite hx
  obtain ⟨t, b, rfl⟩ := exists_finite hy
  have hb : b.val ≠ 0 := by
    intro hzero
    apply hne
    rw [toRat_finite, hzero, units_zero]
    cases t <;> simp
  have hpos : 0 < units b := units_zero ▸ units_lt_units (Nat.pos_of_ne_zero hb)
  have hone := one_cast_pos
  rw [finite_div_finite _ _ _ hb] at h ⊢
  have hrounds := rounds_ofQuotient hpos h
  rw [cast_signed, signed_bne_one, Nat.cast_mul] at hrounds
  have hquotient : (signed s (units a) / one / (signed t (units b) / one) : ℚ) =
      signed s 1 * signed t 1 * (units a * one) / (units b * one) := by
    have hunits : (units b : ℚ) ≠ 0 := Nat.cast_ne_zero.mpr hpos.ne'
    rw [cast_signed, cast_signed t]
    cases s <;> cases t <;> simp <;> field_simp
  rw [toRat_finite, toRat_finite, hquotient]
  exact hrounds

theorem isFinite_div_ofNat (hx : x.isFinite = true) {n : Nat} (hpos : 0 < n) (hn : n ≤ 2 * binade) :
    (x / ofNat n).isFinite = true := by
  obtain ⟨s, a, rfl⟩ := exists_finite hx
  obtain ⟨b, hb, hunits⟩ := exists_ofNat hn
  have hpositive : 0 < units b := by
    rw [hunits]
    exact Nat.mul_pos hpos one_pos
  have hne : b.val ≠ 0 := by
    intro hzero
    rw [hzero, units_zero] at hpositive
    exact Nat.lt_irrefl _ hpositive
  have hle : nearestRank (units a * one) (units b) ≤ a := by
    apply nearestRank_le hpositive
    rw [hunits]
    exact Nat.mul_le_mul_left _ (Nat.le_mul_of_pos_left _ hpos)
  rw [hb, finite_div_finite _ _ _ hne, isFinite_ofQuotient_iff]
  exact Nat.lt_of_le_of_lt hle a.isLt

end MarketTape.Binary64
