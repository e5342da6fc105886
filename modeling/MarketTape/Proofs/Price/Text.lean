import MarketTape.Proofs.Numeral
import MarketTape.Proofs.Price.Cents

/-!
# Prices that read back

A price is written with two places, which is less than all that is known of it.
What is read back of a number is `settled`. It is the number itself for every price
on the grid of cents: where the steps between magnitudes are narrower than about a
cent, the text shows the cents that the price was made from, and where they are
wider, no other magnitude is as near to the written number.
-/

namespace MarketTape.Price

open Binary64

-- Powers are the core library's, whichever others are in scope.
attribute [local instance (2000)] instPowNat

attribute [local irreducible] one units

/-- A number of hundredths is read as the number nearest to it. -/
theorem ofDecimal_hundredths (s : Bool) (n : Nat) :
    ofDecimal s n (-2) = ofQuotient s (n * one) 100 := by
  unfold ofDecimal
  split
  · rename_i hzero
    rw [hzero, zero_eq_ofQuotient]
  · rw [if_neg (by omega), if_neg (by omega)]
    rfl

/-! ## The written cents -/

/-- The cents that are written of a magnitude. -/
def writtenCents (rank : Nat) : Nat := roundHalfEven (units rank * 100) one

theorem writtenCents_of_whole {rank n : Nat} (h : units rank = n * one) :
    writtenCents rank = n * 100 := by
  have hone := one_pos
  rw [writtenCents, h]
  apply roundHalfEven_eq hone <;> rw [Nat.mul_right_comm n one 100] <;> omega

/-- With narrow steps, the cents that a price was made from are written. -/
theorem writtenCents_of_narrow {n : Nat} (h : scale (nearestRank (n * one) 100) ≤ 1067) :
    writtenCents (nearestRank (n * one) 100) = n := by
  have hone : one = 2 ^ (7 : Nat) * 2 ^ (1067 : Nat) := one_eq_mul (a := 7) (b := 1067) rfl
  have hunit : 0 < 2 ^ (1067 : Nat) := Nat.two_pow_pos 1067
  have hstep := Nat.pow_le_pow_right Nat.two_pos h
  obtain ⟨near, far⟩ := nearestRank_error (n * one) (show 0 < 100 by omega)
  rw [writtenCents]
  apply roundHalfEven_eq Binary64.one_pos <;> omega

/-- With wide steps on both sides, the written cents lie nearest to the magnitude
that they were written of. -/
theorem nearestRank_writtenCents_of_wide {below : Nat} (h : 1068 ≤ scale below) :
    nearestRank (writtenCents (below + 1) * one) 100 = below + 1 := by
  have hone : one = 2 ^ (6 : Nat) * 2 ^ (1068 : Nat) := one_eq_mul (a := 6) (b := 1068) rfl
  have hunit : 0 < 2 ^ (1068 : Nat) := Nat.two_pow_pos 1068
  have hstep := Nat.pow_le_pow_right Nat.two_pos h
  have hstep' := Nat.pow_le_pow_right Nat.two_pos (scale_le_scale (show below ≤ below + 1 by omega))
  have hhere := units_succ below
  have hnext := units_succ (below + 1)
  have herror := roundHalfEven_error (units (below + 1) * 100) Binary64.one_pos
  rw [writtenCents]
  apply nearestRank_eq (by omega)
  · intro other hother
    obtain rfl : other = below := by omega
    omega
  · omega

/-- Narrow steps end at `2 ^ 46`. -/
theorem scale_le_iff {rank : Nat} : scale rank ≤ 1067 ↔ rank < 1069 * binade := by
  rw [← Nat.div_lt_iff_lt_mul binade_pos, scale]
  omega

/-- From `2 ^ 46` on, the written cents lead back to every magnitude. -/
theorem nearestRank_writtenCents_of_lt {rank : Nat} (h : 1067 < scale rank) :
    nearestRank (writtenCents rank * one) 100 = rank := by
  have hb := binade_pos
  have hlow : 1069 * binade ≤ rank := Nat.not_lt.mp (mt scale_le_iff.mpr (Nat.not_le.mpr h))
  rcases Nat.lt_or_eq_of_le hlow with hlt | heq
  · obtain ⟨below, rfl⟩ : ∃ below, rank = below + 1 := ⟨rank - 1, by omega⟩
    apply nearestRank_writtenCents_of_wide
    have hdiv : 1069 ≤ below / binade := (Nat.le_div_iff_mul_le hb).mpr (by omega)
    rw [scale]
    omega
  -- At this power of two the steps below are narrow and those above are wide.
  · have hone : one = 2 ^ (6 : Nat) * 2 ^ (1068 : Nat) := one_eq_mul (a := 6) (b := 1068) rfl
    have hbinade : binade = 2 ^ (46 : Nat) * 2 ^ (6 : Nat) := by decide
    have hwindow := units_window 1068 (Nat.le_refl binade) (by omega)
    have hwhole : units rank = 2 ^ (46 : Nat) * one := by
      rw [← heq, show 1069 * binade = binade + 1068 * binade by omega, hwindow, hbinade, hone]
      generalize 2 ^ (1068 : Nat) = unit
      exact Nat.mul_assoc _ _ _
    rw [writtenCents_of_whole hwhole, Nat.mul_right_comm, ← hwhole,
      nearestRank_units rank (by omega)]

/-- The written cents of a price lead back to its magnitude. -/
theorem nearestRank_writtenCents (n : Nat) :
    nearestRank (writtenCents (nearestRank (n * one) 100) * one) 100 =
      nearestRank (n * one) 100 := by
  rcases Nat.lt_or_ge 1067 (scale (nearestRank (n * one) 100)) with hwide | hnarrow
  · exact nearestRank_writtenCents_of_lt hwide
  · rw [writtenCents_of_narrow hnarrow]

/-! ## The text -/

/-- Behind the point stand as many digits as there are places. -/
theorem exists_placesText {places : Nat} (hpos : 0 < places) (count : Nat) :
    ∃ fraction, (placesText places count).toList =
        (Nat.repr (count / 10 ^ places)).toList ++ '.' :: fraction ∧
      fraction.length = places ∧ (∀ c ∈ fraction, Numeral.isDigit c = true) ∧
        Numeral.value ((Nat.repr (count / 10 ^ places)).toList ++ fraction) = count := by
  have hpow : 0 < 10 ^ places := Nat.pow_pos (by omega)
  have hlength : (Nat.repr (count % 10 ^ places)).toList.length ≤ places := by
    rw [Nat.toList_repr, Nat.length_toDigits_le_iff (by omega) hpos]
    exact Nat.mod_lt _ hpow
  refine ⟨List.replicate (places - (Nat.repr (count % 10 ^ places)).length) '0' ++
    (Nat.repr (count % 10 ^ places)).toList, ?_, ?_, ?_, ?_⟩
  · rw [placesText]
    simp
  · rw [← String.length_toList, List.length_append, List.length_replicate]
    omega
  · intro c hc
    rw [List.mem_append] at hc
    cases hc with
    | inl hzero =>
        obtain rfl := (List.mem_replicate.mp hzero).2
        decide
    | inr hdigit => exact Numeral.isDigit_of_mem_repr hdigit
  · have hwhole : Numeral.valueFrom 0 (Nat.repr (count / 10 ^ places)).toList =
        count / 10 ^ places := Numeral.value_repr _
    have hzeros (start zeros : Nat) :
        Numeral.valueFrom start (List.replicate zeros '0') = start * 10 ^ zeros := by
      rw [Numeral.valueFrom_eq_ofDigitChars (by simp [Numeral.isDigit_iff]),
        Nat.ofDigitChars_replicate_zero, Nat.mul_comm]
    rw [Numeral.value, Numeral.valueFrom_append, Numeral.valueFrom_append, hwhole, hzeros,
      Numeral.valueFrom_repr, Nat.mul_assoc, ← Nat.pow_add, ← String.length_toList,
      Nat.sub_add_cancel hlength, Nat.div_add_mod']

/-- Nothing in the text of a price is blank. -/
theorem not_isBlank_text {s : Bool} {whole fraction : List Char}
    (hwhole : ∀ c ∈ whole, Numeral.isDigit c = true)
    (hfraction : ∀ c ∈ fraction, Numeral.isDigit c = true) :
    ∀ c ∈ (signText s).toList ++ (whole ++ '.' :: fraction), Text.isBlank c = false := by
  have hsign : ∀ c ∈ (signText s).toList, Text.isBlank c = false := by
    cases s with
    | false => simp [signText]
    | true => simp [signText, Text.isBlank]
  intro c hc
  simp only [List.mem_append, List.mem_cons] at hc
  obtain hc | hc | rfl | hc := hc
  · exact hsign c hc
  · exact Numeral.isBlank_of_isDigit (hwhole c hc)
  · decide
  · exact Numeral.isBlank_of_isDigit (hfraction c hc)

/-! ## What is read back -/

/-- The number nearest to what is written of a price. -/
def settled : Binary64 → Binary64
  | .finite s rank => ofQuotient s (writtenCents rank * one) 100
  | x => x

/-- Whatever number was written, its text is read as the number nearest to it. -/
theorem binary64?_text (x : Binary64) :
    Numeral.binary64? (Text.trim (text x).toList) = some (settled x) := by
  cases x with
  | nan => decide
  | infinity s => cases s <;> decide
  | finite s rank =>
      obtain ⟨fraction, htext, hlength, hfraction, hvalue⟩ :=
        exists_placesText (show 0 < 2 by omega) (writtenCents rank)
      have hwhole : ∀ c ∈ (Nat.repr (writtenCents rank / 10 ^ 2)).toList,
          Numeral.isDigit c = true := fun c hc => Numeral.isDigit_of_mem_repr hc
      have hwritten : (text (.finite s rank)).toList =
          (signText s).toList ++
            ((Nat.repr (writtenCents rank / 10 ^ 2)).toList ++ '.' :: fraction) := by
        rw [← htext, ← String.toList_append]
        rfl
      rw [hwritten, Text.trim_eq_self (not_isBlank_text hwhole hfraction),
        Numeral.binary64?_of_digits s (Numeral.repr_ne_nil _) hwhole hfraction, hvalue, hlength]
      change some (ofDecimal s _ (-2)) = _
      rw [ofDecimal_hundredths, settled]

/-- A price that was rounded to cents is read back bit for bit, whatever it was
rounded from. -/
theorem settled_toCent {x : Binary64} (h : x.isNaN = false) : settled (toCent x) = toCent x := by
  obtain ⟨s, n, hcent⟩ := exists_toCent h
  rw [hcent]
  rcases Nat.lt_or_ge (nearestRank (n * one) 100) rankCount with hlt | hge
  · rw [ofQuotient_of_lt hlt]
    exact ofQuotient_eq_finite (nearestRank_writtenCents n)
  · rw [ofQuotient_of_le hge, settled]
    rintro s' rank ⟨⟩

end MarketTape.Price
