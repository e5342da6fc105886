import MarketTape.Proofs.Binary64.Arithmetic
import Mathlib.Data.List.Induction

/-!
# The least and the greatest of some numbers

Taking the lower or the higher of two numbers is associative, ties of the two
zeros and NaNs included, so that the extent of a row of numbers can be put together
from the extents of its parts. The infinities are neutral for numbers. What is
taken in this way from a whole row is its `End`: one of its numbers with no other
beyond it, unless the row has no number at all.
-/

namespace MarketTape.Binary64

variable {x y z : Binary64}

theorem eq_nan (h : x.isNaN = true) : x = .nan := by
  cases x with
  | nan => rfl
  | infinity s => cases h
  | finite s rank => cases h

@[simp] theorem least_nan (x : Binary64) : x.least .nan = x := rfl

@[simp] theorem nan_least (y : Binary64) : least .nan y = y := by
  have hnot : ¬ (.nan : Binary64) < y := by simp [lt_iff, isNaN]
  rw [least, if_neg hnot]
  split
  · rename_i hy
    exact (eq_nan hy).symm
  · rfl

theorem least_eq (hx : x.isNaN = false) (hy : y.isNaN = false) :
    x.least y = if x.place < y.place then x else y := by
  simp [least, lt_iff, hx, hy]

theorem isNaN_least (hx : x.isNaN = false) (y : Binary64) : (x.least y).isNaN = false := by
  cases hy : y.isNaN with
  | true => rw [eq_nan hy, least_nan, hx]
  | false =>
      rw [least_eq hx hy]
      split
      · exact hx
      · exact hy

/-- Of three numbers the last among the lowest stands, in whichever order they are
compared. -/
theorem least_assoc (x y z : Binary64) : (x.least y).least z = x.least (y.least z) := by
  cases hx : x.isNaN with
  | true => rw [eq_nan hx, nan_least, nan_least]
  | false =>
      cases hy : y.isNaN with
      | true => rw [eq_nan hy, least_nan, nan_least]
      | false =>
          cases hz : z.isNaN with
          | true => rw [eq_nan hz, least_nan, least_nan]
          | false =>
              rw [least_eq (isNaN_least hx y) hz, least_eq hx (isNaN_least hy z), least_eq hx hy,
                least_eq hy hz]
              by_cases hxy : x.place < y.place <;> by_cases hyz : y.place < z.place
              · rw [if_pos hxy, if_pos hyz, if_pos hxy, if_pos (Int.lt_trans hxy hyz)]
              · rw [if_pos hxy, if_neg hyz]
              · rw [if_neg hxy, if_pos hyz, if_neg hxy]
              · have hxz : ¬ x.place < z.place := by omega
                rw [if_neg hxy, if_neg hyz, if_neg hxz]

theorem least_infinity (h : x.isNaN = false) : x.least (.infinity false) = x := by
  rw [least, if_neg (by simp [isNaN])]
  split
  · rfl
  · rename_i hnot
    have htop := le_iff.mp (le_infinity h)
    apply Eq.symm
    apply eq_infinity_of_le
    exact le_iff.mpr ⟨rfl, h, Int.not_lt.mp fun hlt => hnot (lt_iff.mpr ⟨h, rfl, hlt⟩)⟩

theorem negate_lt_negate_iff : x.negate < y.negate ↔ y < x := by
  rw [lt_iff, lt_iff, isNaN_negate, isNaN_negate, place_negate, place_negate]
  constructor
  · rintro ⟨hx, hy, hlt⟩
    exact ⟨hy, hx, by omega⟩
  · rintro ⟨hy, hx, hlt⟩
    exact ⟨hx, hy, by omega⟩

/-- The higher of two numbers is the lower one seen from the other side. -/
theorem greatest_eq (x y : Binary64) : x.greatest y = (x.negate.least y.negate).negate := by
  rw [greatest, least]
  simp only [isNaN_negate, negate_lt_negate_iff]
  split
  · rw [negate_negate]
  · split <;> rw [negate_negate]

theorem greatest_assoc (x y z : Binary64) :
    (x.greatest y).greatest z = x.greatest (y.greatest z) := by
  simp only [greatest_eq, negate_negate, least_assoc]

theorem isNaN_greatest (hx : x.isNaN = false) (y : Binary64) : (x.greatest y).isNaN = false := by
  rw [greatest_eq, isNaN_negate]
  exact isNaN_least (by rw [isNaN_negate, hx]) _

theorem greatest_infinity (h : x.isNaN = false) : x.greatest (.infinity true) = x := by
  have hneg := least_infinity (x := x.negate) (by rw [isNaN_negate, h])
  rw [greatest_eq, negate_infinity, Bool.not_true, hneg, negate_negate]

/-! ## Rows of numbers -/

/-- The number at one end of a row, on the side that an order names. NaNs do not
count; a row without any other number has its end at infinity. -/
structure End (within : Binary64 → Binary64 → Prop) (infinity : Binary64) (row : List Binary64)
    (found : Binary64) : Prop where
  bound : ∀ x ∈ row, x.isNaN = false → within found x
  attained : (found ∈ row ∧ found.isNaN = false) ∨
    ((∀ x ∈ row, x.isNaN = true) ∧ found = infinity)

/-- The lowest number of a row. -/
abbrev Lowest : List Binary64 → Binary64 → Prop := End (· ≤ ·) (.infinity false)

/-- The highest number of a row. -/
abbrev Highest : List Binary64 → Binary64 → Prop := End (fun x y => y ≤ x) (.infinity true)

/-- The end stays where it is if one more number does not lie beyond it. -/
theorem End.concat {within : Binary64 → Binary64 → Prop} {infinity found : Binary64}
    {row : List Binary64} (h : End within infinity row found)
    (hbound : y.isNaN = false → within found y ∧ found ≠ infinity) :
    End within infinity (row ++ [y]) found := by
  constructor
  case bound =>
    rw [List.forall_mem_append, List.forall_mem_singleton]
    exact ⟨h.bound, fun hy => (hbound hy).1⟩
  case attained =>
    obtain ⟨hmem, hnumber⟩ | ⟨hnone, hinfinity⟩ := h.attained
    · exact .inl ⟨List.mem_append_left _ hmem, hnumber⟩
    · refine .inr ⟨?_, hinfinity⟩
      rw [List.forall_mem_append, List.forall_mem_singleton]
      refine ⟨hnone, Bool.not_eq_false _ ▸ ?_⟩
      intro hy
      exact (hbound hy).2 hinfinity

theorem isNaN_foldl_least (hx : x.isNaN = false) (row : List Binary64) :
    (row.foldl least x).isNaN = false := by
  induction row generalizing x with
  | nil => exact hx
  | cons y row ih => exact ih (isNaN_least hx y)

theorem lowest_foldl_least (row : List Binary64) :
    Lowest row (row.foldl least (.infinity false)) := by
  -- The last number is compared with the lowest of all before it.
  induction row using List.reverseRecOn with
  | nil => exact ⟨by simp, .inr ⟨by simp, rfl⟩⟩
  | append_singleton row y ih =>
      have hlow := isNaN_foldl_least (x := .infinity false) rfl row
      rw [List.foldl_append, List.foldl_cons, List.foldl_nil]
      generalize row.foldl least (.infinity false) = low at ih hlow
      cases hy : y.isNaN with
      | true =>
          rw [eq_nan hy, least_nan]
          exact ih.concat (by rintro ⟨⟩)
      | false =>
          rw [least_eq hlow hy]
          split
          · rename_i hlt
            refine ih.concat fun _ => ⟨le_iff.mpr ⟨hlow, hy, Int.le_of_lt hlt⟩, ?_⟩
            rintro rfl
            exact Int.not_le.mpr hlt (le_iff.mp (le_infinity hy)).2.2
          · rename_i hnot
            refine ⟨?_, .inl ⟨by simp, hy⟩⟩
            rw [List.forall_mem_append, List.forall_mem_singleton]
            refine ⟨?_, le_self⟩
            intro x hmem hx
            have hle := (le_iff.mp (ih.bound x hmem hx)).2.2
            exact le_iff.mpr ⟨hy, hx, Int.le_trans (Int.not_lt.mp hnot) hle⟩

theorem foldl_greatest (row : List Binary64) (x : Binary64) :
    row.foldl greatest x = ((row.map negate).foldl least x.negate).negate := by
  induction row generalizing x with
  | nil => exact (negate_negate x).symm
  | cons y row ih =>
      rw [List.foldl_cons, List.map_cons, List.foldl_cons, ih, greatest_eq, negate_negate]

theorem highest_foldl_greatest (row : List Binary64) :
    Highest row (row.foldl greatest (.infinity true)) := by
  rw [foldl_greatest]
  have hlowest := lowest_foldl_least (row.map negate)
  generalize hfound : (row.map negate).foldl least (.infinity false) = low at hlowest
  rw [show (Binary64.infinity true).negate = .infinity false from rfl, hfound]
  constructor
  case bound =>
    intro x hmem hx
    have hle := hlowest.bound x.negate (List.mem_map_of_mem hmem) (by rw [isNaN_negate, hx])
    simpa using negate_le_negate hle
  case attained =>
    obtain ⟨hmem, hnumber⟩ | ⟨hnone, rfl⟩ := hlowest.attained
    · obtain ⟨x, hx, rfl⟩ := List.mem_map.mp hmem
      rw [negate_negate]
      exact .inl ⟨hx, by rwa [isNaN_negate] at hnumber⟩
    · refine .inr ⟨?_, rfl⟩
      intro x hmem
      have hnegated := hnone x.negate (List.mem_map_of_mem hmem)
      rwa [isNaN_negate] at hnegated

end MarketTape.Binary64
