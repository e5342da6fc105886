import MarketTape.Proofs.Price.Text

/-!
# A price in three forms

A whole number of cents, the binary64 number nearest to it in units of money, and the
text of that number stand for each other, up to `2 ^ 51` cents: from the number the
cents are counted again, rounding to cents leaves it as it is, and the text shows the
cents as they are, although none of the three steps cancels another exactly.
-/

namespace MarketTape.Price

open Binary64

-- Powers are the core library's, whichever others are in scope.
attribute [local instance (2000)] instPowNat

attribute [local irreducible] one units

variable {c : Int}

/-! ## The numeral -/

/-- A whole number of hundredths in decimal: a minus sign below zero, the whole part, a point,
and two digits. -/
def hundredthsText (n : Int) : String :=
  signText (decide (n < 0)) ++ (Nat.repr (n.natAbs / 100) ++ "." ++
    (Nat.repr (n.natAbs / 10 % 10) ++ Nat.repr (n.natAbs % 10)))

/-- A number of one digit has a zero put in front of it. -/
theorem padded_eq_digits {n : Nat} (h : n < 100) :
    String.ofList (List.replicate (2 - (Nat.repr n).length) '0') ++ Nat.repr n =
      Nat.repr (n / 10) ++ Nat.repr (n % 10) := by
  decide +revert

theorem placesText_two (n : Nat) :
    placesText 2 n =
      Nat.repr (n / 100) ++ "." ++ (Nat.repr (n / 10 % 10) ++ Nat.repr (n % 10)) := by
  have hdigits := padded_eq_digits (Nat.mod_lt n (show 0 < 100 by omega))
  rw [show n % 100 / 10 = n / 10 % 10 by omega, show n % 100 % 10 = n % 10 by omega] at hdigits
  rw [placesText, String.append_assoc, ← hdigits]

/-! ## From cents to text -/

/-- The cents of a price are written as they are. -/
theorem text_ofCents (hc : c.natAbs ≤ 2 ^ (51 : Nat)) : text (ofCents c) = hundredthsText c := by
  have hbinade := binade_eq_two_mul
  obtain ⟨hlt, hscale⟩ := scale_nearestRank_cents hc
  have hwritten := writtenCents_of_narrow (Nat.le_succ_of_le hscale)
  rw [ofCents_eq (by omega), ofQuotient_of_lt hlt, hundredthsText, ← placesText_two]
  change _ ++ placesText 2 (writtenCents _) = _
  rw [hwritten]

/-- Up to `2 ^ 51` cents of either sign, a price gives back the cents that it was made from,
stays bit for bit as it is when it is rounded to cents, and is written as the numeral of
these cents. -/
theorem forms_agree (hc : c.natAbs ≤ 2 ^ (51 : Nat)) :
    cents (ofCents c) = c ∧ toCent (ofCents c) = ofCents c ∧ text (ofCents c) = hundredthsText c :=
  ⟨cents_ofCents hc, toCent_ofCents hc, text_ofCents hc⟩

/-- The least number of cents, and a few cents below zero. -/
theorem forms_agree_least :
    (-2251799813685248 : Int).natAbs ≤ 2 ^ (51 : Nat) ∧ (-7 : Int).natAbs ≤ 2 ^ (51 : Nat) ∧
      cents (ofCents (-2251799813685248)) = -2251799813685248 ∧
      toCent (ofCents (-2251799813685248)) = ofCents (-2251799813685248) ∧
      text (ofCents (-2251799813685248)) = "-22517998136852.48" ∧
      text (ofCents (-7)) = "-0.07" := by
  have hleast : (-2251799813685248 : Int).natAbs ≤ 2 ^ (51 : Nat) := by decide
  have hfew : (-7 : Int).natAbs ≤ 2 ^ (51 : Nat) := by decide
  obtain ⟨hcents, hround, htext⟩ := forms_agree hleast
  obtain ⟨-, -, htext'⟩ := forms_agree hfew
  exact ⟨hleast, hfew, hcents, hround, htext.trans (by decide), htext'.trans (by decide)⟩

end MarketTape.Price
