import MarketTape.Numeral
import MarketTape.Text.Blank

/-!
# Numerals that read back

The decimal digits of a natural number are read as that number, and digits with a
point among them as their value, with nothing trimmed from either.
-/

namespace MarketTape

namespace Numeral

-- Powers are the core library's, whichever others are in scope.
attribute [local instance (2000)] instPowNat

/-! ## Digits -/

theorem isDigit_iff {c : Char} : isDigit c = true ↔ '0' ≤ c ∧ c ≤ '9' := by
  rw [isDigit, digit?]
  split <;> simp_all

theorem isDigit_of_isDigit {c : Char} (h : c.isDigit = true) : isDigit c = true := by
  rw [isDigit_iff]
  simpa [Char.isDigit, Char.le_def] using h

theorem digit?_getD {c : Char} (h : isDigit c = true) :
    (digit? c).getD 0 = c.toNat - '0'.toNat := by
  rw [digit?, if_pos (isDigit_iff.mp h), Option.getD_some]

theorem valueFrom_append (start : Nat) (front back : List Char) :
    valueFrom start (front ++ back) = valueFrom (valueFrom start front) back := by
  rw [valueFrom, List.foldl_append]
  rfl

/-- Rows of digits have the value that the core library gives them. -/
theorem valueFrom_eq_ofDigitChars {digits : List Char} (h : ∀ c ∈ digits, isDigit c = true)
    (start : Nat) : valueFrom start digits = Nat.ofDigitChars 10 digits start := by
  induction digits generalizing start with
  | nil => rfl
  | cons c digits ih =>
      have hrest := ih (fun d hd => h d (List.mem_cons_of_mem _ hd)) (10 * start + (c.toNat - 48))
      rw [valueFrom, List.foldl_cons, digit?_getD (h c List.mem_cons_self), Nat.mul_comm,
        Nat.ofDigitChars_cons]
      exact hrest

theorem isDigit_of_mem_repr {n : Nat} {c : Char} (h : c ∈ (Nat.repr n).toList) :
    isDigit c = true := by
  rw [Nat.toList_repr] at h
  exact isDigit_of_isDigit (Nat.isDigit_of_mem_toDigits (by omega) (by omega) h)

theorem repr_ne_nil (n : Nat) : (Nat.repr n).toList ≠ [] := by
  rw [Nat.toList_repr]
  exact Nat.toDigits_ne_nil

/-- Digits in front of others count for the places behind them. -/
theorem valueFrom_repr (start n : Nat) :
    valueFrom start (Nat.repr n).toList = start * 10 ^ (Nat.repr n).toList.length + n := by
  rw [valueFrom_eq_ofDigitChars (fun c hc => isDigit_of_mem_repr hc),
    Nat.ofDigitChars_eq_ofDigitChars_zero, Nat.toList_repr, Nat.ofDigitChars_ten_toDigits,
    Nat.mul_comm]

theorem value_repr (n : Nat) : value (Nat.repr n).toList = n := by
  rw [value, valueFrom_repr, Nat.zero_mul, Nat.zero_add]

theorem natural?_repr (n : Nat) : natural? (Nat.repr n).toList = some n := by
  have hall : (Nat.repr n).toList.all isDigit = true :=
    List.all_eq_true.mpr fun c hc => isDigit_of_mem_repr hc
  have hne : (Nat.repr n).toList.isEmpty = false := by
    exact List.isEmpty_eq_false_iff.mpr (repr_ne_nil n)
  rw [natural?, hall, hne, value_repr]
  rfl

theorem unsigned?_repr {width n : Nat} (h : n < 2 ^ width) :
    unsigned? width (Nat.repr n).toList = some n := by
  have hplus : ∀ rest, (Nat.repr n).toList = '+' :: rest → False := by
    intro rest heq
    have hdigit : isDigit '+' = true := isDigit_of_mem_repr (n := n) (by rw [heq]; simp)
    exact absurd hdigit (by decide)
  rw [unsigned?, natural?_repr, Option.filter_some, if_pos (decide_eq_true h)]
  exact hplus

/-! ## Numbers with a point -/

theorem scientific?_of_digits {whole fraction : List Char} (hne : whole ≠ [])
    (hwhole : ∀ c ∈ whole, isDigit c = true) (hfraction : ∀ c ∈ fraction, isDigit c = true) :
    scientific? (whole ++ '.' :: fraction) = some ⟨whole, fraction, 0⟩ := by
  have htake : (whole ++ '.' :: fraction).takeWhile isDigit = whole := by
    rw [List.takeWhile_append_of_pos hwhole, List.takeWhile_cons_of_neg (by decide),
      List.append_nil]
  have hdrop : (whole ++ '.' :: fraction).dropWhile isDigit = '.' :: fraction := by
    rw [List.dropWhile_append_of_pos hwhole, List.dropWhile_cons_of_neg (by decide)]
  have htake' : fraction.takeWhile isDigit = fraction := by
    have hend : (fraction ++ []).takeWhile isDigit = fraction ++ [].takeWhile isDigit :=
      List.takeWhile_append_of_pos hfraction
    simpa using hend
  have hdrop' : fraction.dropWhile isDigit = [] := by
    have hend : (fraction ++ []).dropWhile isDigit = [].dropWhile isDigit :=
      List.dropWhile_append_of_pos hfraction
    simpa using hend
  rw [scientific?, htake, hdrop]
  simp [htake', hdrop', hne, exponent?]

/-- A digit is the first letter of no word. -/
theorem unsignedBinary64?_of_digit (negative : Bool) {c : Char} {rest : List Char}
    (h : isDigit c = true) : unsignedBinary64? negative (c :: rest) =
      (scientific? (c :: rest)).map (Scientific.toBinary64 negative) := by
  have hlower : c.toLower = c := by
    have hrange := isDigit_iff.mp h
    simp only [Char.le_def, UInt32.le_iff_toNat_le] at hrange
    have hhigh : c.val.toNat ≤ 57 := hrange.2
    apply dif_neg
    intro hupper
    have hlow : 65 ≤ c.val.toNat := UInt32.le_iff_toNat_le.mp hupper.1
    omega
  have hword {first : Char} {letters : List Char} (hfirst : isDigit first = false) :
      ¬ (c :: rest).map Char.toLower = first :: letters := by
    intro heq
    rw [List.map_cons, List.cons.injEq] at heq
    rw [← heq.1, hlower, h] at hfirst
    cases hfirst
  rw [unsignedBinary64?, if_neg, if_neg]
  · exact hword (by decide)
  · exact not_or.mpr ⟨hword (by decide), hword (by decide)⟩

/-- A minus is the sign of what follows it, and digits alone are positive. -/
theorem binary64?_signed (negative : Bool) {c : Char} {rest : List Char} (h : isDigit c = true) :
    binary64? ((Binary64.signText negative).toList ++ c :: rest) =
      unsignedBinary64? negative (c :: rest) := by
  cases negative with
  | true => rfl
  | false =>
      have hsign (sign : Char) (hsign : isDigit sign = false) : c ≠ sign := by
        rintro rfl
        rw [h] at hsign
        cases hsign
      change binary64? (c :: rest) = _
      rw [binary64?]
      · rintro rest' heq
        exact hsign '-' (by decide) (List.cons.inj heq).1
      · rintro rest' heq
        exact hsign '+' (by decide) (List.cons.inj heq).1

/-- Digits with a point among them are read as the number they show. -/
theorem binary64?_of_digits (negative : Bool) {whole fraction : List Char} (hne : whole ≠ [])
    (hwhole : ∀ c ∈ whole, isDigit c = true) (hfraction : ∀ c ∈ fraction, isDigit c = true) :
    binary64? ((Binary64.signText negative).toList ++ (whole ++ '.' :: fraction)) =
      some (Binary64.ofDecimal negative (value (whole ++ fraction)) (0 - fraction.length)) := by
  have hread := scientific?_of_digits hne hwhole hfraction
  cases whole with
  | nil => exact absurd rfl hne
  | cons c rest =>
      have hc := hwhole c List.mem_cons_self
      rw [List.cons_append] at hread ⊢
      rw [binary64?_signed negative hc, unsignedBinary64?_of_digit negative hc, hread]
      rfl

end Numeral

/-! ## Blanks -/

theorem Text.trim_eq_self {text : List Char} (h : ∀ c ∈ text, isBlank c = false) :
    trim text = text := by
  have hdrop {front : List Char} (hfront : ∀ c ∈ front, isBlank c = false) :
      front.dropWhile isBlank = front := by
    cases front with
    | nil => rfl
    | cons c rest => rw [List.dropWhile_cons_of_neg (by simp [hfront c List.mem_cons_self])]
  rw [trim, hdrop h, hdrop (fun c hc => h c (List.mem_reverse.mp hc)), List.reverse_reverse]

theorem Numeral.isBlank_of_isDigit {c : Char} (h : isDigit c = true) : Text.isBlank c = false := by
  have hrange := isDigit_iff.mp h
  simp only [Char.le_def, UInt32.le_iff_toNat_le] at hrange
  have hlow : 48 ≤ c.toNat := hrange.1
  have hhigh : c.toNat ≤ 57 := hrange.2
  rw [Text.isBlank]
  simp only [Bool.or_eq_false_iff, Bool.and_eq_false_iff, decide_eq_false_iff_not,
    beq_eq_false_iff_ne]
  omega

end MarketTape
