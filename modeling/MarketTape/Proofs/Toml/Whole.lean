import MarketTape.Proofs.Numeral
import MarketTape.Proofs.Numeral.Grammar
import MarketTape.Toml.Document

/-!
# Whole numbers in a document

A document can give its keys whole numbers in base ten, one on a line. It reads back as
long as each of them lies within the 64 bits of an integer with a sign; one that does not
spoils all of the document.
-/

namespace MarketTape

namespace Numeral

/-- Digits of a number other than zero do not begin with a zero. -/
theorem head?_toDigits_ne {n : Nat} (h : 0 < n) : (Nat.toDigits 10 n).head? ≠ some '0' := by
  induction n using Nat.strongRecOn with
  | ind n ih =>
      rw [Nat.toDigits_eq_if (by omega)]
      split
      · rename_i hlt
        have hdigit : ∀ n < 10, 0 < n → n.digitChar ≠ '0' := by decide
        intro heq
        exact hdigit n hlt h (Option.some.inj heq)
      · obtain ⟨c, digits, hfront⟩ : ∃ c digits, Nat.toDigits 10 (n / 10) = c :: digits :=
          List.exists_cons_of_ne_nil Nat.toDigits_ne_nil
        have hc := ih (n / 10) (by omega) (by omega)
        rw [hfront] at hc ⊢
        exact hc

/-- More than one digit are not written with a leading zero. -/
theorem length_repr_or (n : Nat) :
    (Nat.repr n).toList.length = 1 ∨ (Nat.repr n).toList.head? ≠ some '0' := by
  cases n with
  | zero => exact .inl rfl
  | succ n =>
      rw [Nat.toList_repr]
      exact .inr (head?_toDigits_ne n.succ_pos)

theorem isDigits_repr (n : Nat) : IsDigits (Nat.repr n).toList :=
  ⟨repr_ne_nil n, fun _ hc => isDigit_of_mem_repr hc⟩

end Numeral

namespace Toml

open Numeral (IsDigits)

variable {digits front rest : List Char} {key : String} {n : Nat}

/-! ## Numbers -/

/-- The first natural number that 64 bits with a sign do not hold, `2 ^ 63`. -/
def wholeLimit : Nat := 9223372036854775808

namespace Number

/-- Digits alone hold no underscores that had to be dropped. -/
theorem digitsFrom?_of_digits (h : ∀ c ∈ digits, Numeral.isDigit c = true) (behindDigit : Bool)
    (hne : digits ≠ [] ∨ behindDigit = true) :
    digitsFrom? Numeral.isDigit behindDigit digits = some digits := by
  induction digits generalizing behindDigit with
  | nil =>
      obtain hne | rfl := hne
      · exact absurd rfl hne
      · rfl
  | cons c digits ih =>
      obtain ⟨hc, hrest⟩ := List.forall_mem_cons.mp h
      rw [digitsFrom?, if_pos hc, ih hrest true (.inr rfl)]
      rfl

theorem whole?_of_digits (h : IsDigits digits)
    (hhead : digits.length = 1 ∨ digits.head? ≠ some '0') : whole? digits = some digits := by
  rw [whole?, decimal?, digits?, digitsFrom?_of_digits h.2 false (.inl h.1)]
  simpa using hhead

/-- Digits in base ten are the number that they stand for, if 64 bits with a sign hold it. -/
theorem unsigned?_of_digits (h : IsDigits digits)
    (hhead : digits.length = 1 ∨ digits.head? ≠ some '0') :
    unsigned? false digits = word? (Numeral.value digits) := by
  have hword (c : Char) (word : List Char) (hmem : c ∈ word) (hc : Numeral.isDigit c = false) :
      digits ≠ word := by
    rintro rfl
    rw [h.2 c hmem] at hc
    cases hc
  have hgap : ∀ c ∈ digits, isDigitOrGap c = true := by
    intro c hc
    rw [isDigitOrGap, h.2 c hc, Bool.true_or]
  obtain ⟨htake, hdrop⟩ := @Text.span_append isDigitOrGap digits [] hgap nofun
  rw [List.append_nil] at htake hdrop
  rw [unsigned?, if_neg (hword 'n' "inf".toList (by decide) (by decide)),
    if_neg (hword 'n' "nan".toList (by decide) (by decide)), htake, hdrop,
    whole?_of_digits h hhead]
  rfl

theorem word?_natCast (n : Nat) :
    word? n = if n < wholeLimit then some (.integer (Int64.ofNat n)) else none := by
  have hlow : Int64.minValue.toInt = -9223372036854775808 := by decide
  have hhigh : Int64.maxValue.toInt = 9223372036854775807 := by decide
  rw [word?, hlow, hhigh, Int64.ofInt_eq_ofNat, wholeLimit]
  congr 1
  rw [eq_iff_iff]
  omega

end Number

theorem number?_repr (n : Nat) :
    number? (Nat.repr n).toList =
      if n < wholeLimit then some (.integer (Int64.ofNat n)) else none := by
  have hdigits := Numeral.isDigits_repr n
  have hhead := Numeral.length_repr_or n
  rw [← Number.word?_natCast]
  have hvalue := Numeral.value_repr n
  generalize (Nat.repr n).toList = digits at hdigits hhead hvalue
  have hbase (letter : Char) (hletter : Numeral.isDigit letter = false) :
      digits.take 2 ≠ ['0', letter] := by
    intro htake
    have hmem : letter ∈ digits.take 2 := htake ▸ List.mem_cons_of_mem _ List.mem_cons_self
    rw [hdigits.2 letter (List.mem_of_mem_take hmem)] at hletter
    cases hletter
  have hsigned : Number.signed digits = (false, digits) := by
    rw [Number.signed]
    · exact fun rest => (hdigits.ne_sign rest).2
    · exact fun rest => (hdigits.ne_sign rest).1
  rw [number?]
  split
  · rename_i htake
    exact absurd htake (hbase 'x' (by decide))
  · rename_i htake
    exact absurd htake (hbase 'o' (by decide))
  · rename_i htake
    exact absurd htake (hbase 'b' (by decide))
  · rw [hsigned, ← hvalue]
    exact Number.unsigned?_of_digits hdigits hhead

/-! ## Lines -/

/-- A key that needs no quotes. -/
def IsBareKey (key : String) : Prop := key.toList ≠ [] ∧ key.toList.all isKeyChar = true

instance (key : String) : Decidable (IsBareKey key) := inferInstanceAs (Decidable (_ ∧ _))

/-- The document that gives some keys whole numbers. -/
def wholeText : List (String × Nat) → String
  | [] => ""
  | (key, n) :: pairs => key ++ " = " ++ Nat.repr n ++ "\n" ++ wholeText pairs

/-- The entry of a key and a whole number. -/
def wholeEntry (pair : String × Nat) : Entry := ⟨pair.1, .integer (Int64.ofNat pair.2)⟩

theorem toList_wholeText_cons (key : String) (n : Nat) (pairs : List (String × Nat)) :
    (wholeText ((key, n) :: pairs)).toList =
      key.toList ++ ' ' :: '=' :: ' ' ::
        ((Nat.repr n).toList ++ '\n' :: (wholeText pairs).toList) := by
  simp [wholeText, String.toList_append]

/-- Characters of a key are told from those that are none. -/
theorem ne_of_isKeyChar {c other : Char} (hc : isKeyChar c = true)
    (hother : isKeyChar other = false) : c ≠ other := by
  rintro rfl
  rw [hc] at hother
  cases hother

theorem isGap_of_isKeyChar {c : Char} (hc : isKeyChar c = true) : isGap c = false := by
  rw [isGap, Bool.or_eq_false_iff, beq_eq_false_iff_ne, beq_eq_false_iff_ne]
  exact ⟨ne_of_isKeyChar hc (by decide), ne_of_isKeyChar hc (by decide)⟩

theorem isKeyChar_of_isDigit {c : Char} (h : Numeral.isDigit c = true) : isKeyChar c = true := by
  have hdigit : c.isDigit = true := by
    simpa [Char.isDigit, Char.le_def] using Numeral.isDigit_iff.mp h
  rw [isKeyChar, Char.isAlphanum, hdigit, Bool.or_true, Bool.true_or, Bool.true_or]

theorem IsBareKey.forall_mem (h : IsBareKey key) : ∀ c ∈ key.toList, isKeyChar c = true :=
  List.all_eq_true.mp h.2

/-- A key is what its line begins with. -/
theorem IsBareKey.exists_head (h : IsBareKey key) :
    ∃ c text, key.toList = c :: text ∧ isKeyChar c = true := by
  cases hkey : key.toList with
  | nil => exact absurd hkey h.1
  | cons c text => exact ⟨c, text, rfl, h.forall_mem c (hkey ▸ List.mem_cons_self)⟩

theorem IsBareKey.dropWhile_isGap (h : IsBareKey key) (rest : List Char) :
    (key.toList ++ rest).dropWhile isGap = key.toList ++ rest := by
  obtain ⟨c, text, hkey, hc⟩ := h.exists_head
  rw [hkey, List.cons_append, List.dropWhile_cons_of_neg (by simp [isGap_of_isKeyChar hc])]

/-- A line with a key is neither empty nor a comment. -/
theorem IsBareKey.lineEnd?_eq (h : IsBareKey key) (rest : List Char) :
    lineEnd? (key.toList ++ rest) = none := by
  rw [lineEnd?, h.dropWhile_isGap]
  obtain ⟨c, text, hkey, hc⟩ := h.exists_head
  have hcomment : ¬ some c = some '#' := fun heq =>
    ne_of_isKeyChar hc (by decide) (Option.some.inj heq)
  have hend : c ≠ '\n' := ne_of_isKeyChar hc (by decide)
  simp [hkey, hcomment, hend]

/-- A whole number is read up to the end of its line. -/
theorem value?_repr (n : Nat) (rest : List Char) :
    value? ((Nat.repr n).toList ++ '\n' :: rest) =
      (number? (Nat.repr n).toList).map (·, '\n' :: rest) := by
  have hnumber : ∀ c ∈ (Nat.repr n).toList, isNumberChar c = true := by
    intro c hc
    have hkey := isKeyChar_of_isDigit (Numeral.isDigit_of_mem_repr hc)
    rw [isKeyChar] at hkey
    rw [isNumberChar, hkey, Bool.true_or, Bool.true_or]
  obtain ⟨htake, hdrop⟩ := @Text.span_append _ _ ('\n' :: rest) hnumber (by simp; decide)
  rw [value?, htake, hdrop]
  split
  · rename_i hnone
    exact absurd hnone (Numeral.repr_ne_nil n)
  · rfl

theorem lineEnd?_lineFeed (rest : List Char) : lineEnd? ('\n' :: rest) = some rest := rfl

theorem dropWhile_isGap_repr (n : Nat) (rest : List Char) :
    ((Nat.repr n).toList ++ rest).dropWhile isGap = (Nat.repr n).toList ++ rest := by
  cases hdigits : (Nat.repr n).toList with
  | nil => exact absurd hdigits (Numeral.repr_ne_nil n)
  | cons c digits =>
      have hc : isKeyChar c = true :=
        isKeyChar_of_isDigit (Numeral.isDigit_of_mem_repr (hdigits ▸ List.mem_cons_self))
      rw [List.cons_append, List.dropWhile_cons_of_neg (by simp [isGap_of_isKeyChar hc])]

/-- The entry of a line is its key with the number, if 64 bits with a sign hold that. -/
theorem entry?_wholeText (h : IsBareKey key) (n : Nat) (pairs : List (String × Nat)) :
    entry? (wholeText ((key, n) :: pairs)).toList =
      if n < wholeLimit then some (wholeEntry (key, n), (wholeText pairs).toList) else none := by
  have hkey : key? (wholeText ((key, n) :: pairs)).toList =
      some (key.toList, ' ' :: '=' :: ' ' ::
        ((Nat.repr n).toList ++ '\n' :: (wholeText pairs).toList)) := by
    rw [toList_wholeText_cons]
    obtain ⟨htake, hdrop⟩ := @Text.span_append _ _ (' ' :: '=' :: ' ' ::
      ((Nat.repr n).toList ++ '\n' :: (wholeText pairs).toList)) h.forall_mem (by simp; decide)
    rw [key?, htake, hdrop]
    split
    · rename_i hnone
      exact absurd hnone h.1
    · rfl
  have hgaps (text : List Char) : (' ' :: text).dropWhile isGap = text.dropWhile isGap := rfl
  have hequals (text : List Char) : ('=' :: text).dropWhile isGap = '=' :: text := rfl
  unfold entry?
  rw [toList_wholeText_cons, h.dropWhile_isGap, ← toList_wholeText_cons, hkey]
  simp only [hgaps, hequals, dropWhile_isGap_repr, value?_repr, number?_repr]
  by_cases hn : n < wholeLimit
  · simp only [if_pos hn, Option.map_some, lineEnd?_lineFeed, String.ofList_toList, wholeEntry]
  · simp only [if_neg hn, Option.map_none]

/-! ## Documents -/

variable {pairs : List (String × Nat)}

/-- The entries of a document are its keys with their numbers, if 64 bits with a sign hold
each of these. -/
theorem entriesWithin?_wholeText (hkeys : ∀ pair ∈ pairs, IsBareKey pair.1) {fuel : Nat}
    (hfuel : pairs.length ≤ fuel) :
    entriesWithin? fuel (wholeText pairs).toList =
      if ∀ pair ∈ pairs, pair.2 < wholeLimit then some (pairs.map wholeEntry) else none := by
  -- A line takes one step, whether it gives an entry or ends the reading.
  induction pairs generalizing fuel with
  | nil => cases fuel <;> simp [wholeText, entriesWithin?]
  | cons pair pairs ih =>
      obtain ⟨key, n⟩ := pair
      obtain ⟨hkey, hrest⟩ := List.forall_mem_cons.mp hkeys
      cases fuel with
      | zero => cases hfuel
      | succ fuel =>
          have hbehind := ih hrest (Nat.le_of_succ_le_succ hfuel)
          have hline : lineEnd? (wholeText ((key, n) :: pairs)).toList = none := by
            rw [toList_wholeText_cons, hkey.lineEnd?_eq]
          have hne : (wholeText ((key, n) :: pairs)).toList ≠ [] := by
            rw [toList_wholeText_cons]
            simp
          rw [entriesWithin?, hline, entry?_wholeText hkey]
          · by_cases hn : n < wholeLimit
            · simp only [List.forall_mem_cons, hn, true_and, if_true, hbehind]
              split
              · rfl
              · rfl
            · simp only [List.forall_mem_cons, hn, false_and, if_false]
          · exact hne

/-- No line of a document takes less than a character. -/
theorem length_le_wholeText : pairs.length ≤ (wholeText pairs).toList.length := by
  induction pairs with
  | nil => exact Nat.zero_le _
  | cons pair pairs ih =>
      rw [toList_wholeText_cons]
      simp only [List.length_cons, List.length_append]
      omega

/-- A document holds characters of keys, spaces, equals signs and line feeds. -/
theorem mem_wholeText (hkeys : ∀ pair ∈ pairs, IsBareKey pair.1) {c : Char}
    (hc : c ∈ (wholeText pairs).toList) : isKeyChar c = true ∨ c ∈ [' ', '=', '\n'] := by
  induction pairs with
  | nil => cases hc
  | cons pair pairs ih =>
      obtain ⟨hkey, hrest⟩ := List.forall_mem_cons.mp hkeys
      rw [toList_wholeText_cons] at hc
      simp only [List.mem_append, List.mem_cons] at hc
      obtain hc | hc | hc | hc | hc | hc | hc := hc
      · exact .inl (hkey.forall_mem c hc)
      · simp [hc]
      · simp [hc]
      · simp [hc]
      · exact .inl (isKeyChar_of_isDigit (Numeral.isDigit_of_mem_repr hc))
      · simp [hc]
      · exact ih hrest hc

theorem withoutReturns_eq_self {text : List Char} (h : '\r' ∉ text) :
    withoutReturns text = text := by
  induction text with
  | nil => rfl
  | cons c rest ih =>
      obtain ⟨hc, hrest⟩ := not_or.mp (mt List.mem_cons.mpr h)
      rw [withoutReturns, if_neg fun hreturn => hc hreturn.1.symm, ih hrest]

theorem entries?_wholeText (hkeys : ∀ pair ∈ pairs, IsBareKey pair.1) :
    entries? (wholeText pairs) =
      if ∀ pair ∈ pairs, pair.2 < wholeLimit then some (pairs.map wholeEntry) else none := by
  have hnot {c : Char} (hkey : isKeyChar c = false) (hmark : c ∉ [' ', '=', '\n']) :
      c ∉ (wholeText pairs).toList := by
    intro hc
    obtain hkeyChar | hother := mem_wholeText hkeys hc
    · rw [hkey] at hkeyChar
      cases hkeyChar
    · exact hmark hother
  have hreturn : '\r' ∉ (wholeText pairs).toList := hnot (by decide) (by decide)
  have hmark : (wholeText pairs).toList.head? ≠ some '\uFEFF' := by
    intro hhead
    exact hnot (by decide) (by decide) (List.mem_of_mem_head? hhead)
  rw [entries?]
  simp only [if_neg hmark, withoutReturns_eq_self hreturn]
  exact entriesWithin?_wholeText hkeys length_le_wholeText

end Toml

end MarketTape
