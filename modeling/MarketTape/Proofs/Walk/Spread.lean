import MarketTape.Proofs.Walk.Width

/-!
# Spreads that keep the book open

`Walk.staysOpen` looks at finitely many mids of fresh walks. The walks meet no
other mids, so that it decides a property of all walks of any length: the bid
stays below the ask from the first book on.
-/

namespace MarketTape.Walk

open Binary64

-- Powers are the core library's, whichever others are in scope.
attribute [local instance (2000)] instPowNat

attribute [local irreducible] one units

/-- Every book of a walk is the book of the walk behind some of the drifts. -/
theorem exists_follow_of_mem_books {walk : Walk} {drifts : List Binary64} {book : Book}
    (h : book ∈ walk.books drifts) :
    ∃ front, front <+: drifts ∧ book = (walk.follow front).book := by
  induction drifts generalizing walk with
  | nil =>
      rw [books, List.mem_singleton] at h
      exact ⟨[], List.nil_prefix, h⟩
  | cons drift drifts ih =>
      rw [books, List.mem_cons] at h
      cases h with
      | inl h => exact ⟨[], List.nil_prefix, h⟩
      | inr h =>
          obtain ⟨front, hfront, hbook⟩ := ih h
          exact ⟨drift :: front, List.cons_prefix_cons.mpr ⟨rfl, hfront⟩, hbook⟩

@[simp] theorem spread_follow (walk : Walk) (drifts : List Binary64) :
    (walk.follow drifts).spread = walk.spread := by
  induction drifts generalizing walk with
  | nil => rfl
  | cons drift drifts ih => exact ih (walk.step drift)

/-- Drifts that are numbers keep the mid on the grid, however many there are. -/
theorem OnGrid.follow {walk : Walk} (h : walk.OnGrid) {drifts : List Binary64}
    (hd : ∀ drift ∈ drifts, drift.isNaN = false) : (walk.follow drifts).OnGrid := by
  induction drifts generalizing walk with
  | nil => exact h
  | cons drift drifts ih =>
      apply ih (h.step (hd drift List.mem_cons_self))
      intro d hmem
      exact hd d (List.mem_cons_of_mem _ hmem)

theorem book_mem_books (walk : Walk) (drifts : List Binary64) : walk.book ∈ walk.books drifts := by
  cases drifts <;> simp [books]

/-! ## Spreads that cannot be checked -/

theorem toCent_nan : Price.toCent .nan = .nan := rfl

theorem exists_two :
    ∃ rank : Fin rankCount, (2 : Binary64) = .finite false rank ∧ rank.val ≠ 0 := by
  obtain ⟨rank, heq, hunits⟩ := exists_ofNat (show 2 ≤ 2 * binade by decide)
  refine ⟨rank, heq, ?_⟩
  intro hzero
  have hone := one_pos
  rw [hzero, units_zero] at hunits
  omega

theorem infinity_div_two (s : Bool) : (.infinity s / 2 : Binary64) = .infinity s := by
  obtain ⟨rank, heq, -⟩ := exists_two
  rw [heq]
  change Binary64.infinity (s != false) = _
  rw [Bool.bne_false]

/-- With a finite spread that is not positive the two sides meet or cross. -/
theorem ask_le_bid {walk : Walk} {s t : Bool} {mid spread : Fin rankCount}
    (hmid : walk.mid = .finite s mid) (hspread : walk.spread = .finite t spread)
    (h : walk.spread.place ≤ 0) : walk.book.ask ≤ walk.book.bid := by
  obtain ⟨two, htwo, hne⟩ := exists_two
  have hpos : 0 < units two := units_zero ▸ units_lt_units (Nat.pos_of_ne_zero hne)
  have hnumber : (walk.spread / 2).isNaN = false := by
    rw [hspread, htwo, finite_div_finite _ _ _ hne]
    exact isNaN_ofQuotient ..
  have hhalf : (walk.spread / 2).place ≤ 0 := by
    rw [hspread, place] at h
    rw [hspread, htwo, finite_div_finite _ _ _ hne, place_ofQuotient, Bool.bne_false]
    cases t with
    | false =>
        have hzero : units spread = 0 := by
          rw [signed_false] at h
          omega
        rw [hzero, Nat.zero_mul, nearestUnits_zero hpos]
        exact Int.le_refl _
    | true =>
        rw [signed_true]
        exact Int.neg_nonpos_of_nonneg (Int.natCast_nonneg _)
  have horder : walk.spread / 2 ≤ (walk.spread / 2).negate := by
    refine le_iff.mpr ⟨hnumber, by rw [isNaN_negate, hnumber], ?_⟩
    rw [place_negate]
    omega
  change Price.toCent (walk.mid + walk.spread / 2) ≤
    Price.toCent (walk.mid + (walk.spread / 2).negate)
  apply Price.toCent_le_toCent
  apply Binary64.add_le_add
  · rw [hmid]
    exact le_self rfl
  · exact horder
  · rw [hmid, isNaN_finite_add, hnumber]
  · rw [hmid, isNaN_finite_add, isNaN_negate, hnumber]

/-- If a book is open at all, its spread is a positive number. -/
theorem positive_of_open {walk : Walk} {s : Bool} {mid : Fin rankCount}
    (hmid : walk.mid = .finite s mid) (hne : walk.spread ≠ .infinity false)
    (h : walk.book.bid < walk.book.ask) : walk.spread.isFinite = true ∧ 0 < walk.spread := by
  cases hspread : walk.spread with
  | nan =>
      have hbid : walk.book.bid = .nan := by
        change Price.toCent (walk.mid + (walk.spread / 2).negate) = _
        rw [hspread]
        change Price.toCent (walk.mid + .nan) = _
        rw [add_nan, toCent_nan]
      rw [hbid, lt_iff] at h
      cases h.1
  | infinity t =>
      cases t with
      | false => exact absurd hspread hne
      | true =>
          have hask : walk.book.ask = .infinity true := by
            change Price.toCent (walk.mid + walk.spread / 2) = _
            rw [hspread, infinity_div_two, hmid, finite_add_infinity, Price.toCent_infinity]
          rw [hask] at h
          have hbid := (lt_iff.mp h).1
          exact absurd h (not_lt_of_le (neg_infinity_le hbid))
  | finite t spread =>
      refine ⟨rfl, ?_⟩
      rw [lt_iff, isNaN_zero, place_zero]
      refine ⟨rfl, rfl, Int.not_le.mp ?_⟩
      intro hle
      have hle' : walk.spread.place ≤ 0 := by
        rw [hspread]
        exact hle
      exact not_lt_of_le (ask_le_bid hmid hspread hle') h

/-! ## Spreads that are checked -/

/-- A spread that passes the check keeps the books of all walks open. -/
theorem open_of_staysOpen {spread mid : Binary64} {drifts : List Binary64} {book : Book}
    (hopen : staysOpen spread = true) (hmid : mid.isNaN = false)
    (hdrifts : ∀ drift ∈ drifts, drift.isNaN = false)
    (hbook : book ∈ (start mid spread).books drifts) : book.bid < book.ask := by
  obtain ⟨front, hfront, rfl⟩ := exists_follow_of_mem_books hbook
  have hgrid : ((start mid spread).follow front).OnGrid :=
    (onGrid_start hmid spread).follow fun drift hmem => hdrifts drift (hfront.subset hmem)
  rw [← Book.isOpen_iff]
  apply hgrid.isOpen_book
  rw [spread_follow]
  exact hopen

/-- A spread passes the check if it keeps the book of every fresh walk from a mid
on the grid open. -/
theorem staysOpen_of_open {spread : Binary64} (hne : spread ≠ .infinity false)
    (h : ∀ n ∈ centsOfMids,
      (start (Price.ofCents n) spread).book.bid < (start (Price.ofCents n) spread).book.ask) :
    staysOpen spread = true := by
  obtain ⟨rank, hrank⟩ :=
    Price.exists_ofCents (show 9000 ≤ 2 * binade from le_two_binade (by omega))
  have hmid : (start (Price.ofCents (9000 : Nat)) spread).mid = .finite false rank := by
    rw [start, hold_ofCents (Nat.le_refl _) (by omega), hrank]
  obtain ⟨hfinite, hpositive⟩ := positive_of_open hmid hne (h 9000 (by decide))
  exact staysOpen_iff.mpr ⟨hfinite, hpositive, h⟩

/-- The check of a spread decides whether every book of every walk with it is
open. Only the infinite spread is refused although its books are open, since no
price can be made of them. -/
theorem staysOpen_iff_books_open {spread : Binary64} (hne : spread ≠ .infinity false) :
    (staysOpen spread = true ↔
      ∀ mid : Binary64, mid.isNaN = false →
        ∀ drifts : List Binary64, (∀ drift ∈ drifts, drift.isNaN = false) →
          ∀ book ∈ (start mid spread).books drifts, book.bid < book.ask) ∧
      ∀ book : Book, book.bid < book.ask ↔ 0 < book.width := by
  refine ⟨⟨?_, ?_⟩, fun book => sub_pos_iff.symm⟩
  · intro hopen mid hmid drifts hdrifts book hbook
    exact open_of_staysOpen hopen hmid hdrifts hbook
  · intro hall
    apply staysOpen_of_open hne
    intro n hn
    rw [mem_centsOfMids, cents_lowest, cents_highest] at hn
    obtain ⟨rank, hrank⟩ :=
      Price.exists_ofCents (show n ≤ 2 * binade from le_two_binade (by omega))
    have hnumber : (Price.ofCents n).isNaN = false := by
      rw [hrank]
      rfl
    exact hall _ hnumber [] (by simp) _ (book_mem_books _ _)

theorem books_open_of_two_cents :
    Price.ofCents (2 * 1 : Nat) ≠ .infinity false ∧ staysOpen (Price.ofCents (2 * 1 : Nat)) = true ∧
      ∀ mid : Binary64, mid.isNaN = false →
        ∀ drifts : List Binary64, (∀ drift ∈ drifts, drift.isNaN = false) →
          ∀ book ∈ (start mid (Price.ofCents (2 * 1 : Nat))).books drifts, book.bid < book.ask := by
  have hne : Price.ofCents (2 * 1 : Nat) ≠ .infinity false := by
    obtain ⟨rank, hrank⟩ := Price.exists_ofCents (show 2 * 1 ≤ 2 * binade by decide)
    rw [hrank]
    exact Binary64.noConfusion
  have hopen := staysOpen_ofCents (k := 1) Nat.one_pos (by omega)
  exact ⟨hne, hopen, (staysOpen_iff_books_open hne).1.mp hopen⟩

end MarketTape.Walk
