import MarketTape.Proofs.Binary64.Order

/-!
# Monotone arithmetic

Sums are monotone in both terms, and products and quotients with a fixed
positive number as well as whole parts in the other one. A difference is
positive exactly if its terms are in order: the least unit is never rounded
away.
-/

namespace MarketTape.Binary64

variable {x y : Binary64}

/-! ## Signs -/

theorem signed_not (s : Bool) (count : Nat) : signed (!s) count = -signed s count := by
  cases s <;> simp

theorem sub_eq_add_negate (x y : Binary64) : x - y = x + y.negate := rfl

@[simp] theorem negate_nan : nan.negate = nan := rfl

@[simp] theorem negate_infinity (s : Bool) : (infinity s).negate = infinity (!s) := rfl

@[simp] theorem negate_finite (s : Bool) (rank : Fin rankCount) :
    (finite s rank).negate = finite (!s) rank := rfl

@[simp] theorem isNaN_negate (x : Binary64) : x.negate.isNaN = x.isNaN := by
  cases x <;> rfl

@[simp] theorem place_negate (x : Binary64) : x.negate.place = -x.place := by
  cases x with
  | nan => rfl
  | infinity s => exact signed_not s _
  | finite s rank => exact signed_not s _

@[simp] theorem negate_negate (x : Binary64) : x.negate.negate = x := by
  cases x <;> simp [negate]

theorem negate_le_negate (h : x ≤ y) : y.negate ≤ x.negate := by
  obtain ⟨hx, hy, hle⟩ := le_iff.mp h
  refine le_iff.mpr ⟨by simpa using hy, by simpa using hx, ?_⟩
  rw [place_negate, place_negate]
  exact Int.neg_le_neg hle

theorem exists_finite (h : x.isFinite = true) : ∃ s rank, x = .finite s rank := by
  cases x with
  | nan => cases h
  | infinity s => cases h
  | finite s rank => exact ⟨s, rank, rfl⟩

/-! ## Infinities as the ends of the line -/

theorem le_infinity (h : x.isNaN = false) : x ≤ .infinity false :=
  le_iff.mpr ⟨h, rfl, place_le_top⟩

theorem neg_infinity_le (h : x.isNaN = false) : .infinity true ≤ x := by
  simpa using negate_le_negate (le_infinity (x := x.negate) (by simpa using h))

theorem eq_infinity_of_le (h : .infinity false ≤ x) : x = .infinity false := by
  obtain ⟨-, hx, hle⟩ := le_iff.mp h
  have htop : units 0 < units rankCount := units_lt_units (by decide)
  cases x with
  | nan => simp [isNaN] at hx
  | infinity s =>
      cases s with
      | false => rfl
      | true =>
          simp only [place, signed_false, signed_true] at hle
          omega
  | finite s rank =>
      have hlt : units rank < units rankCount := units_lt_units rank.isLt
      cases s <;> simp only [place, signed_false, signed_true] at hle <;> omega

theorem eq_neg_infinity_of_le (h : x ≤ .infinity true) : x = .infinity true := by
  have hneg : x.negate = .infinity false :=
    eq_infinity_of_le (by simpa using negate_le_negate h)
  rw [← negate_negate x, hneg]
  rfl

/-- Two numbers in order are finite unless one of them is the end of the line
that it may be. -/
theorem exists_finite_of_le (h : x ≤ y) (hlow : x ≠ .infinity true)
    (hhigh : y ≠ .infinity false) :
    ∃ s a t b, x = .finite s a ∧ y = .finite t b ∧ signed s (units a) ≤ signed t (units b) := by
  obtain ⟨hx, hy, hle⟩ := le_iff.mp h
  cases x with
  | nan => simp [isNaN] at hx
  | infinity s =>
      cases s with
      | false => exact absurd (eq_infinity_of_le h) hhigh
      | true => exact absurd rfl hlow
  | finite s a =>
      cases y with
      | nan => simp [isNaN] at hy
      | infinity t =>
          cases t with
          | false => exact absurd rfl hhigh
          | true => exact absurd (eq_neg_infinity_of_le h) hlow
      | finite t b => exact ⟨s, a, t, b, rfl, rfl, hle⟩

/-- A function that keeps the infinities and is monotone on finite numbers is
monotone wherever there is an order. -/
theorem le_of_finite {f : Binary64 → Binary64} (hends : ∀ s, f (.infinity s) = .infinity s)
    (hnumber : ∀ s rank, (f (.finite s rank)).isNaN = false)
    (hmono : ∀ s t (a b : Fin rankCount), signed s (units a) ≤ signed t (units b) →
      (f (.finite s a)).place ≤ (f (.finite t b)).place)
    (h : x ≤ y) : f x ≤ f y := by
  have hkeep : ∀ z : Binary64, z.isNaN = false → (f z).isNaN = false := by
    intro z hz
    cases z with
    | nan => simp [isNaN] at hz
    | infinity s => simp [hends, isNaN]
    | finite s rank => exact hnumber s rank
  obtain ⟨hx, hy, -⟩ := le_iff.mp h
  by_cases hlow : x = .infinity true
  · rw [hlow, hends]
    exact neg_infinity_le (hkeep y hy)
  by_cases hhigh : y = .infinity false
  · rw [hhigh, hends]
    exact le_infinity (hkeep x hx)
  obtain ⟨s, a, t, b, rfl, rfl, hle⟩ := exists_finite_of_le h hlow hhigh
  exact le_iff.mpr ⟨hnumber s a, hnumber t b, hmono s t a b hle⟩

/-! ## Products, quotients and whole parts -/

theorem finite_mul_finite (s t : Bool) (a b : Fin rankCount) :
    .finite s a * .finite t b = ofQuotient (s != t) (units a * units b) one := rfl

theorem finite_div_finite (s t : Bool) (a : Fin rankCount) {b : Fin rankCount} (h : b.val ≠ 0) :
    .finite s a / .finite t b = ofQuotient (s != t) (units a * one) (units b) := by
  change (if b.val = 0 then _ else _) = _
  rw [if_neg h]

protected theorem mul_le_mul_right {c : Fin rankCount} (hc : c.val ≠ 0) (h : x ≤ y) :
    x * .finite false c ≤ y * .finite false c := by
  refine le_of_finite (f := fun z => z * .finite false c) ?_ ?_ ?_ h
  · intro s
    change (if c.val = 0 then _ else _) = _
    rw [if_neg hc, Bool.bne_false]
  · intro s rank
    exact isNaN_ofQuotient ..
  · intro s t a b hle
    simp only [finite_mul_finite, Bool.bne_false, place_ofQuotient]
    refine signed_le_signed (g := fun u => nearestUnits (u * units c) one) ?_ ?_ hle
    · simp [nearestUnits_zero one_pos]
    · exact (monotone_nearestUnits one_pos).comp fun a b h => Nat.mul_le_mul_right _ h

protected theorem div_le_div_right {c : Fin rankCount} (hc : c.val ≠ 0) (h : x ≤ y) :
    x / .finite false c ≤ y / .finite false c := by
  have hpos : 0 < units c := units_zero ▸ units_lt_units (Nat.pos_of_ne_zero hc)
  refine le_of_finite (f := fun z => z / .finite false c) ?_ ?_ ?_ h
  · intro s
    change Binary64.infinity (s != false) = _
    rw [Bool.bne_false]
  · intro s rank
    rw [finite_div_finite _ _ _ hc]
    exact isNaN_ofQuotient ..
  · intro s t a b hle
    simp only [finite_div_finite _ _ _ hc, Bool.bne_false, place_ofQuotient]
    refine signed_le_signed (g := fun u => nearestUnits (u * one) (units c)) ?_ ?_ hle
    · simp [nearestUnits_zero hpos]
    · exact (monotone_nearestUnits hpos).comp fun a b h => Nat.mul_le_mul_right _ h

theorem round_le_round (h : x ≤ y) : x.round ≤ y.round := by
  refine le_of_finite (f := round) (fun s => rfl) (fun s rank => isNaN_ofQuotient ..) ?_ h
  intro s t a b hle
  simp only [round, place_ofQuotient]
  refine signed_le_signed
    (g := fun u => nearestUnits ((2 * u + one) / (2 * one) * one) 1) ?_ ?_ hle
  · have hone := one_pos
    simp [Nat.div_eq_of_lt (show one < 2 * one by omega), nearestUnits_zero Nat.one_pos]
  · refine (monotone_nearestUnits Nat.one_pos).comp fun a b h => ?_
    exact Nat.mul_le_mul_right _ (Nat.div_le_div_right (by omega))

/-! ## Sums -/

@[simp] theorem nan_add (x : Binary64) : .nan + x = .nan := rfl

@[simp] theorem add_nan (x : Binary64) : x + .nan = .nan := by
  cases x <;> rfl

@[simp] theorem infinity_add_infinity (s t : Bool) :
    (.infinity s + .infinity t : Binary64) = if s = t then .infinity s else .nan := rfl

@[simp] theorem infinity_add_finite (s t : Bool) (b : Fin rankCount) :
    (.infinity s + .finite t b : Binary64) = .infinity s := rfl

@[simp] theorem finite_add_infinity (s t : Bool) (a : Fin rankCount) :
    (.finite s a + .infinity t : Binary64) = .infinity t := rfl

theorem finite_add_finite (s t : Bool) (a b : Fin rankCount) :
    (.finite s a + .finite t b : Binary64) =
      if signed s (units a) + signed t (units b) = 0 then zero (s && t)
      else ofQuotient (decide (signed s (units a) + signed t (units b) < 0))
        (signed s (units a) + signed t (units b)).natAbs 1 := rfl

theorem place_finite_add_finite (s t : Bool) (a b : Fin rankCount) :
    (.finite s a + .finite t b : Binary64).place =
      signed (decide (signed s (units a) + signed t (units b) < 0))
        (nearestUnits (signed s (units a) + signed t (units b)).natAbs 1) := by
  rw [finite_add_finite]
  split
  · rename_i h
    rw [h]
    cases s <;> cases t <;> simp [zero, place, nearestUnits_zero Nat.one_pos]
  · exact place_ofQuotient ..

theorem isNaN_finite_add_finite (s t : Bool) (a b : Fin rankCount) :
    (.finite s a + .finite t b : Binary64).isNaN = false := by
  rw [finite_add_finite]
  split
  · rfl
  · exact isNaN_ofQuotient ..

/-- A sum with a finite number is a number if the other term is one. -/
theorem isNaN_finite_add (s : Bool) (a : Fin rankCount) (x : Binary64) :
    (.finite s a + x : Binary64).isNaN = x.isNaN := by
  cases x with
  | nan => rfl
  | infinity t => rfl
  | finite t b => exact isNaN_finite_add_finite ..

theorem isNaN_add_finite (x : Binary64) (s : Bool) (a : Fin rankCount) :
    (x + .finite s a : Binary64).isNaN = x.isNaN := by
  cases x with
  | nan => rfl
  | infinity t => rfl
  | finite t b => exact isNaN_finite_add_finite ..

theorem infinity_add {s : Bool} (h : (.infinity s + y : Binary64).isNaN = false) :
    .infinity s + y = .infinity s := by
  cases y with
  | nan => simp [isNaN] at h
  | infinity t => cases s <;> cases t <;> simp_all [isNaN]
  | finite t b => rfl

theorem add_infinity {s : Bool} (h : (x + .infinity s : Binary64).isNaN = false) :
    x + .infinity s = .infinity s := by
  cases x with
  | nan => simp [isNaN] at h
  | infinity t => cases s <;> cases t <;> simp_all [isNaN]
  | finite t b => rfl

/-- Sums that are numbers are monotone in both terms. -/
protected theorem add_le_add {x' y' : Binary64} (hx : x ≤ x') (hy : y ≤ y')
    (h : (x + y).isNaN = false) (h' : (x' + y').isNaN = false) : x + y ≤ x' + y' := by
  by_cases hxl : x = .infinity true
  · rw [hxl] at h ⊢
    rw [infinity_add h]
    exact neg_infinity_le h'
  by_cases hyl : y = .infinity true
  · rw [hyl] at h ⊢
    rw [add_infinity h]
    exact neg_infinity_le h'
  by_cases hxh : x' = .infinity false
  · rw [hxh] at h' ⊢
    rw [infinity_add h']
    exact le_infinity h
  by_cases hyh : y' = .infinity false
  · rw [hyh] at h' ⊢
    rw [add_infinity h']
    exact le_infinity h
  obtain ⟨s, a, s', a', rfl, rfl, hxle⟩ := exists_finite_of_le hx hxl hxh
  obtain ⟨t, b, t', b', rfl, rfl, hyle⟩ := exists_finite_of_le hy hyl hyh
  refine le_iff.mpr ⟨h, h', ?_⟩
  rw [place_finite_add_finite, place_finite_add_finite]
  refine signed_le_signed (g := fun u => nearestUnits u 1) ?_ (monotone_nearestUnits Nat.one_pos) ?_
  · exact nearestUnits_zero Nat.one_pos
  · rw [signed_natAbs, signed_natAbs]
    omega

theorem place_finite (s : Bool) (a : Fin rankCount) :
    (finite s a).place = signed s (nearestUnits (units a) 1) := by
  have hexact := nearestRank_units a Nat.one_pos
  rw [Nat.mul_one] at hexact
  rw [nearestUnits, hexact, Nat.min_eq_left (Nat.le_of_lt a.isLt), place]

/-- A finite number lies at or below its sum with a number that is not negative. -/
theorem finite_le_add (s : Bool) (a : Fin rankCount) (hy : 0 ≤ y) :
    finite s a ≤ finite s a + y := by
  obtain ⟨-, hnumber, hplace⟩ := le_iff.mp hy
  rw [place_zero] at hplace
  refine le_iff.mpr ⟨rfl, by rw [isNaN_finite_add, hnumber], ?_⟩
  cases y with
  | nan => cases hnumber
  | infinity t =>
      cases t with
      | false => exact place_le_top
      | true =>
          have htop : units 0 < units rankCount := units_lt_units (by decide)
          simp only [place, signed_true] at hplace
          omega
  | finite t b =>
      simp only [place] at hplace
      rw [place_finite, place_finite_add_finite]
      refine signed_le_signed (g := fun u => nearestUnits u 1) (nearestUnits_zero Nat.one_pos)
        (monotone_nearestUnits Nat.one_pos) ?_
      rw [signed_natAbs]
      omega

theorem negate_nonpos (hy : 0 ≤ y) : y.negate ≤ 0 := by
  obtain ⟨-, hnumber, hplace⟩ := le_iff.mp hy
  rw [place_zero] at hplace
  refine le_iff.mpr ⟨by rw [isNaN_negate, hnumber], isNaN_zero, ?_⟩
  rw [place_negate, place_zero]
  omega

theorem finite_add_le (s : Bool) (a : Fin rankCount) (hy : y ≤ 0) :
    finite s a + y ≤ finite s a := by
  obtain ⟨hnumber, -, hplace⟩ := le_iff.mp hy
  rw [place_zero] at hplace
  refine le_iff.mpr ⟨by rw [isNaN_finite_add, hnumber], rfl, ?_⟩
  cases y with
  | nan => cases hnumber
  | infinity t =>
      cases t with
      | false =>
          have htop : units 0 < units rankCount := units_lt_units (by decide)
          simp only [place, signed_false] at hplace
          omega
      | true => exact (le_iff.mp (neg_infinity_le (x := finite s a) rfl)).2.2
  | finite t b =>
      simp only [place] at hplace
      rw [place_finite s a, place_finite_add_finite]
      refine signed_le_signed (g := fun u => nearestUnits u 1) (nearestUnits_zero Nat.one_pos)
        (monotone_nearestUnits Nat.one_pos) ?_
      rw [signed_natAbs]
      omega

/-- A magnitude with more than one place to its scale is at least a step wide. -/
theorem two_pow_scale_le_units {rank : Nat} (h : 1 ≤ scale rank) : 2 ^ scale rank ≤ units rank := by
  have hlow : binade ≤ rank := by
    apply Nat.le_of_not_lt
    intro hlt
    rw [scale, Nat.div_eq_of_lt hlt] at h
    omega
  obtain ⟨count, hcount, hhigh, heq⟩ := eq_window hlow
  have hunits : units rank = count * 2 ^ scale rank := by
    rw [← units_window _ hcount (Nat.le_of_lt hhigh), ← heq]
  rw [hunits]
  exact Nat.le_mul_of_pos_left _ (Nat.lt_of_lt_of_le binade_pos hcount)

/-- A count less than a quarter of a step away from a magnitude is rounded to it. The
step below a power of two is half as wide as the one above. -/
theorem nearestRank_of_near {rank sum part : Nat} (hpart : 4 * part < 2 ^ scale rank)
    (low : units rank ≤ sum + part) (high : sum ≤ units rank + part) :
    nearestRank sum 1 = rank := by
  apply nearestRank_eq Nat.one_pos
  · rintro below rfl
    have hfoot : 2 ^ scale (below + 1) ≤ 2 * 2 ^ scale below := by
      rw [← Nat.pow_succ']
      apply Nat.pow_le_pow_right Nat.two_pos
      rw [scale, scale, Nat.succ_div]
      split <;> omega
    rw [units_succ] at low ⊢
    omega
  · rw [units_succ]
    omega

/-- A number is not moved by a term that is small beside its own steps. -/
theorem finite_add_eq {s t : Bool} {a b : Fin rankCount} (hpos : 0 < units a)
    (h : 4 * units a < 2 ^ scale b.val) : (.finite s a + .finite t b : Binary64) = .finite t b := by
  have hscale : 1 ≤ scale b.val := by
    apply Nat.pos_of_ne_zero
    intro hzero
    rw [hzero, Nat.pow_zero] at h
    omega
  have hlarge := two_pow_scale_le_units hscale
  have hcount : units b.val ≤ (signed s (units a) + signed t (units b)).natAbs + units a ∧
      (signed s (units a) + signed t (units b)).natAbs ≤ units b.val + units a := by
    cases s <;> cases t <;> simp only [signed_false, signed_true] <;> omega
  have hsum : signed s (units a) + signed t (units b) ≠ 0 := by
    cases s <;> cases t <;> simp only [signed_false, signed_true] <;> omega
  have hsign : decide (signed s (units a) + signed t (units b) < 0) = t := by
    cases t with
    | false =>
        apply decide_eq_false
        cases s <;> simp only [signed_false, signed_true] <;> omega
    | true =>
        apply decide_eq_true
        cases s <;> simp only [signed_false, signed_true] <;> omega
  rw [finite_add_finite, if_neg hsum, hsign]
  exact ofQuotient_eq_finite (nearestRank_of_near h hcount.1 hcount.2)

/-- No number of least units but zero is rounded to zero. -/
theorem nearestUnits_pos_iff {num : Nat} : 0 < nearestUnits num 1 ↔ 0 < num := by
  constructor
  · intro h
    apply Nat.pos_of_ne_zero
    rintro rfl
    rw [nearestUnits_zero Nat.one_pos] at h
    exact Nat.lt_irrefl _ h
  · intro h
    have hrank : 1 ≤ nearestRank num 1 := by
      apply le_nearestRank Nat.one_pos
      rw [units_eq_self (by decide)]
      omega
    rw [nearestUnits, ← units_zero]
    exact units_lt_units (Nat.lt_min.mpr ⟨hrank, by decide⟩)

theorem signed_pos_iff {n : Int} {count : Nat} (h : 0 < count ↔ 0 < n.natAbs) :
    0 < signed (decide (n < 0)) count ↔ 0 < n := by
  by_cases hneg : n < 0
  · simp only [hneg, decide_true, signed_true]
    omega
  · simp only [hneg, decide_false, signed_false]
    omega

theorem finite_sub_pos_iff (s t : Bool) (a b : Fin rankCount) :
    0 < (.finite t b - .finite s a : Binary64).place ↔
      (Binary64.finite s a).place < (Binary64.finite t b).place := by
  rw [sub_eq_add_negate, negate_finite, place_finite_add_finite, signed_not,
    signed_pos_iff nearestUnits_pos_iff, place, place]
  omega

/-- A difference is positive exactly if its terms are in order. -/
theorem sub_pos_iff : 0 < y - x ↔ x < y := by
  have htop : 0 < units rankCount := Nat.lt_of_le_of_lt (Nat.zero_le _)
    (units_lt_units (show 0 < rankCount by decide))
  rw [lt_iff, lt_iff, place_zero, isNaN_zero]
  cases x with
  | nan => simp [sub_eq_add_negate, isNaN]
  | infinity s =>
      cases y with
      | nan => simp [sub_eq_add_negate, isNaN]
      | infinity t =>
          cases s <;> cases t <;> simp [sub_eq_add_negate, isNaN, place, htop]
      | finite t b =>
          have hlt : units b < units rankCount := units_lt_units b.isLt
          cases s <;> cases t <;> simp [sub_eq_add_negate, isNaN, place] <;> omega
  | finite s a =>
      cases y with
      | nan => simp [sub_eq_add_negate, isNaN]
      | infinity t =>
          have hlt : units a < units rankCount := units_lt_units a.isLt
          cases s <;> cases t <;> simp [sub_eq_add_negate, isNaN, place] <;> omega
      | finite t b =>
          have hnumber : (.finite t b - .finite s a : Binary64).isNaN = false :=
            isNaN_finite_add_finite t (!s) b a
          rw [finite_sub_pos_iff, hnumber]
          simp [isNaN]

end MarketTape.Binary64
