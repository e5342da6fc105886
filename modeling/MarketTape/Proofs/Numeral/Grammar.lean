import MarketTape.Proofs.Numeral

/-!
# The grammar of numerals

Which texts stand for a number, and for which one, said as rules that do not read
anything: natural numbers of some width, and binary64 numbers. The readers take exactly
the texts of the grammar. Since no numeral has a blank in it, a text is a numeral when it
is trimmed exactly if it is one with blanks around it.
-/

namespace MarketTape

/-! ## Blanks around a text -/

namespace Text

/-- A text is another one with blanks around it. -/
def Pads (text body : List Char) : Prop :=
  ∃ front back, text = front ++ body ++ back ∧ (∀ c ∈ front, isBlank c = true) ∧
    ∀ c ∈ back, isBlank c = true

/-- Every text is what is left of it by trimming, with blanks around it. -/
theorem pads_trim (text : List Char) : Pads text (trim text) := by
  have hblank (text : List Char) : ∀ c ∈ text.takeWhile isBlank, isBlank c = true :=
    List.all_eq_true.mp List.all_takeWhile
  refine ⟨text.takeWhile isBlank, ((text.dropWhile isBlank).reverse.takeWhile isBlank).reverse,
    ?_, hblank text, ?_⟩
  · rw [trim, List.append_assoc, ← List.reverse_append, List.takeWhile_append_dropWhile,
      List.reverse_reverse, List.takeWhile_append_dropWhile]
  · intro c hc
    exact hblank _ c (List.mem_reverse.mp hc)

/-- Blanks in front of a text that has none are passed over, and nothing more. -/
theorem dropWhile_pads {front body back : List Char} (hfront : ∀ c ∈ front, isBlank c = true)
    (hbody : ∀ c ∈ body, isBlank c = false) (hback : ∀ c ∈ back, isBlank c = true) :
    (front ++ body ++ back).dropWhile isBlank = if body = [] then [] else body ++ back := by
  rw [List.append_assoc, List.dropWhile_append_of_pos hfront]
  cases body with
  | nil =>
      have hnothing : (back ++ []).dropWhile isBlank = [].dropWhile isBlank :=
        List.dropWhile_append_of_pos hback
      simpa using hnothing
  | cons c body =>
      rw [List.cons_append, List.dropWhile_cons_of_neg (by simp [hbody c List.mem_cons_self]),
        if_neg (List.cons_ne_nil c body)]

theorem Pads.trim_eq {text body : List Char} (h : Pads text body)
    (hbody : ∀ c ∈ body, isBlank c = false) : trim text = body := by
  obtain ⟨front, back, rfl, hfront, hback⟩ := h
  rw [trim, dropWhile_pads hfront hbody hback]
  split
  · simp_all
  · have hturned := @dropWhile_pads back.reverse body.reverse []
      (fun c hc => hback c (List.mem_reverse.mp hc))
      (fun c hc => hbody c (List.mem_reverse.mp hc)) (by simp)
    rw [List.append_nil, if_neg (by simpa)] at hturned
    rw [List.reverse_append, hturned, List.append_nil, List.reverse_reverse]

/-- Characters of one kind are read up to the first one of another kind. -/
theorem span_append {p : Char → Bool} {front back : List Char} (hfront : ∀ c ∈ front, p c = true)
    (hback : ∀ c ∈ back.head?, p c = false) :
    (front ++ back).takeWhile p = front ∧ (front ++ back).dropWhile p = back := by
  rw [List.takeWhile_append_of_pos hfront, List.dropWhile_append_of_pos hfront]
  cases back with
  | nil => simp
  | cons c back =>
      have hc : ¬ p c = true := by simp [hback c rfl]
      rw [List.takeWhile_cons_of_neg hc, List.dropWhile_cons_of_neg hc, List.append_nil]
      exact ⟨rfl, rfl⟩

end Text

namespace Numeral

-- Powers are the core library's, whichever others are in scope.
attribute [local instance (2000)] instPowNat

/-! ## The rules -/

/-- At least one digit and nothing else. -/
def IsDigits (text : List Char) : Prop := text ≠ [] ∧ ∀ c ∈ text, isDigit c = true

/-- What may stand in front of a number, and whether it makes the number negative. -/
inductive IsSign : List Char → Bool → Prop
  | none : IsSign [] false
  | plus : IsSign ['+'] false
  | minus : IsSign ['-'] true

/-- A natural number below `2 ^ width`: its digits, with a plus sign or without a sign. -/
inductive IsUnsigned (width : Nat) : List Char → Nat → Prop
  | digits {sign digits : List Char} (hsign : IsSign sign false) (hdigits : IsDigits digits)
      (hfits : value digits < 2 ^ width) : IsUnsigned width (sign ++ digits) (value digits)

/-- A power of ten behind a number: nothing, or a letter `e`, a sign and digits. -/
inductive IsExponent : List Char → Int → Prop
  | none : IsExponent [] 0
  | some {letter : Char} {sign digits : List Char} {negative : Bool}
      (hletter : letter = 'e' ∨ letter = 'E') (hsign : IsSign sign negative)
      (hdigits : IsDigits digits) :
      IsExponent (letter :: (sign ++ digits))
        (if negative then -(value digits : Int) else value digits)

/-- A decimal number: digits alone, or digits with a point among them, in front of them or
behind them. -/
inductive IsScientific : List Char → Scientific → Prop
  | whole {whole tail : List Char} {exponent : Int} (hwhole : IsDigits whole)
      (htail : IsExponent tail exponent) : IsScientific (whole ++ tail) ⟨whole, [], exponent⟩
  | point {whole fraction tail : List Char} {exponent : Int}
      (hdigits : IsDigits (whole ++ fraction)) (htail : IsExponent tail exponent) :
      IsScientific (whole ++ '.' :: (fraction ++ tail)) ⟨whole, fraction, exponent⟩

/-- A word in letters of either case. -/
def Spells (word : String) (text : List Char) : Prop := text.map Char.toLower = word.toList

instance (word : String) (text : List Char) : Decidable (Spells word text) :=
  inferInstanceAs (Decidable (_ = _))

/-- A binary64 number without a sign of its own. -/
inductive IsMagnitude (negative : Bool) : List Char → Binary64 → Prop
  | infinity {text : List Char} (hword : Spells "inf" text ∨ Spells "infinity" text) :
      IsMagnitude negative text (.infinity negative)
  | nan {text : List Char} (hword : Spells "nan" text) : IsMagnitude negative text .nan
  | number {text : List Char} {parts : Scientific} (hparts : IsScientific text parts) :
      IsMagnitude negative text (parts.toBinary64 negative)

/-- A binary64 number. -/
inductive IsBinary64 : List Char → Binary64 → Prop
  | signed {sign text : List Char} {negative : Bool} {number : Binary64}
      (hsign : IsSign sign negative) (htext : IsMagnitude negative text number) :
      IsBinary64 (sign ++ text) number

variable {text digits front back : List Char} {c : Char}

/-! ## Natural numbers -/

theorem natural?_eq_some_iff {n : Nat} :
    natural? text = some n ↔ IsDigits text ∧ value text = n := by
  rw [natural?, ← ite_not, IsDigits]
  simp [and_assoc]

/-- Neither sign is a digit. -/
theorem IsDigits.ne_sign (h : IsDigits digits) (rest : List Char) :
    digits ≠ '+' :: rest ∧ digits ≠ '-' :: rest := by
  have hhead {first : Char} (hfirst : isDigit first = false) : digits ≠ first :: rest := by
    rintro rfl
    exact absurd (h.2 first List.mem_cons_self) (by simp [hfirst])
  exact ⟨hhead (by decide), hhead (by decide)⟩

theorem unsigned?_eq_some_iff {width n : Nat} :
    unsigned? width text = some n ↔ IsUnsigned width text n := by
  have hread (digits : List Char) :
      (natural? digits).filter (· < 2 ^ width) = some n ↔
        IsDigits digits ∧ value digits < 2 ^ width ∧ value digits = n := by
    rw [Option.filter_eq_some_iff, natural?_eq_some_iff, decide_eq_true_iff]
    constructor
    · rintro ⟨⟨hdigits, rfl⟩, hfits⟩
      exact ⟨hdigits, hfits, rfl⟩
    · rintro ⟨hdigits, hfits, rfl⟩
      exact ⟨⟨hdigits, rfl⟩, hfits⟩
  rw [unsigned?.eq_def]
  constructor
  · intro h
    split at h
    · obtain ⟨hdigits, hfits, rfl⟩ := (hread _).mp h
      exact .digits .plus hdigits hfits
    · obtain ⟨hdigits, hfits, rfl⟩ := (hread _).mp h
      exact .digits .none hdigits hfits
  · rintro ⟨hsign, hdigits, hfits⟩
    have hmade := (hread _).mpr ⟨hdigits, hfits, rfl⟩
    cases hsign with
    | none =>
        split
        · rename_i rest heq
          exact absurd heq (hdigits.ne_sign rest).1
        · exact hmade
    | plus => exact hmade

theorem IsUnsigned.lt {width n : Nat} (h : IsUnsigned width text n) : n < 2 ^ width := by
  obtain ⟨-, -, hfits⟩ := h
  exact hfits

/-! ## Binary64 numbers -/

theorem exponent?_eq_some_iff {n : Int} : exponent? text = some n ↔ IsExponent text n := by
  have hread {digits : List Char} {m : Int} :
      (natural? digits).map Int.ofNat = some m ↔ IsDigits digits ∧ (value digits : Int) = m := by
    rw [Option.map_eq_some_iff]
    constructor
    · rintro ⟨n, hn, rfl⟩
      obtain ⟨hdigits, rfl⟩ := natural?_eq_some_iff.mp hn
      exact ⟨hdigits, rfl⟩
    · rintro ⟨hdigits, rfl⟩
      exact ⟨_, natural?_eq_some_iff.mpr ⟨hdigits, rfl⟩, rfl⟩
  have hcast (digits : List Char) :
      (do let m ← natural? digits; pure (m : Int)) = (natural? digits).map Int.ofNat := by
    cases natural? digits <;> rfl
  rw [exponent?.eq_def]
  simp only [hcast]
  constructor
  · intro h
    split at h
    · cases h
      exact .none
    · split at h
      · rename_i hletter
        split at h
        · obtain ⟨m, hm, rfl⟩ := Option.map_eq_some_iff.mp h
          obtain ⟨hdigits, rfl⟩ := hread.mp hm
          exact .some hletter .minus hdigits
        · obtain ⟨hdigits, rfl⟩ := hread.mp h
          exact .some hletter .plus hdigits
        · obtain ⟨hdigits, rfl⟩ := hread.mp h
          exact .some hletter .none hdigits
      · cases h
  · rintro (_ | ⟨hletter, hsign, hdigits⟩)
    · rfl
    · have hmade := hread.mpr ⟨hdigits, rfl⟩
      simp only [if_pos hletter]
      cases hsign with
      | minus => exact congrArg (Option.map fun n => -n) hmade
      | plus => exact hmade
      | none =>
          split
          · rename_i rest heq
            exact absurd heq (hdigits.ne_sign rest).2
          · rename_i rest heq
            exact absurd heq (hdigits.ne_sign rest).1
          · exact hmade

/-- A power of ten begins with neither a digit nor a point. -/
theorem IsExponent.head?_ne {n : Int} (h : IsExponent text n) :
    ∀ c ∈ text.head?, isDigit c = false ∧ c ≠ '.' := by
  rintro c hc
  cases h with
  | none => cases hc
  | some hletter =>
      cases hc
      obtain rfl | rfl := hletter
      · decide
      · decide

theorem scientific?_eq_some_iff {parts : Scientific} :
    scientific? text = some parts ↔ IsScientific text parts := by
  have hdigits (text : List Char) : ∀ c ∈ text.takeWhile isDigit, isDigit c = true :=
    List.all_eq_true.mp List.all_takeWhile
  rw [scientific?]
  constructor
  · intro h
    split at h
    rename_i fraction tail hpoint
    split at hpoint
    · rename_i behind hdot
      cases hpoint
      split at h
      · cases h
      · rename_i hne
        obtain ⟨exponent, htail, rfl⟩ := Option.map_eq_some_iff.mp h
        have hread : IsDigits (text.takeWhile isDigit ++ behind.takeWhile isDigit) := by
          refine ⟨by simpa using hne, ?_⟩
          intro c hc
          exact (List.mem_append.mp hc).elim (hdigits _ c) (hdigits _ c)
        have hparts := IsScientific.point hread (exponent?_eq_some_iff.mp htail)
        rwa [List.takeWhile_append_dropWhile, ← hdot, List.takeWhile_append_dropWhile] at hparts
    · cases hpoint
      split at h
      · cases h
      · rename_i hne
        obtain ⟨exponent, htail, rfl⟩ := Option.map_eq_some_iff.mp h
        have hread : IsDigits (text.takeWhile isDigit) := ⟨by simpa using hne, hdigits _⟩
        have hparts := IsScientific.whole hread (exponent?_eq_some_iff.mp htail)
        rwa [List.takeWhile_append_dropWhile] at hparts
  · rintro (⟨hwhole, htail⟩ | ⟨hread, htail⟩)
    · obtain ⟨htake, hdrop⟩ := Text.span_append hwhole.2 fun c hc => (htail.head?_ne c hc).1
      have hne := hwhole.1
      rw [htake, hdrop]
      split
      rename_i fraction rest hpoint
      split at hpoint
      · exact absurd rfl (htail.head?_ne '.' rfl).2
      · cases hpoint
        simp [hne, exponent?_eq_some_iff.mpr htail]
    · obtain ⟨hwhole, hfraction⟩ := List.forall_mem_append.mp hread.2
      obtain ⟨htake, hdrop⟩ := @Text.span_append _ _ ('.' :: _) hwhole (by simp; decide)
      obtain ⟨htake', hdrop'⟩ := Text.span_append hfraction fun c hc => (htail.head?_ne c hc).1
      have hne := hread.1
      rw [htake, hdrop]
      simp only [htake', hdrop', exponent?_eq_some_iff.mpr htail]
      refine (if_neg ?_).trans rfl
      simpa using hne

/-- Only capital letters have a small form of their own. -/
theorem toLower_eq_self (h : ¬ (65 ≤ c.toNat ∧ c.toNat ≤ 90)) : c.toLower = c := by
  apply dif_neg
  rintro ⟨hlow, hhigh⟩
  exact h ⟨UInt32.le_iff_toNat_le.mp hlow, UInt32.le_iff_toNat_le.mp hhigh⟩

/-- A word holds no character that is neither one of its letters nor a capital one. -/
theorem Spells.not_mem {word : String} (h : Spells word text) (hword : c ∉ word.toList)
    (hcapital : ¬ (65 ≤ c.toNat ∧ c.toNat ≤ 90)) : c ∉ text := by
  intro hc
  have hlower := List.mem_map_of_mem (f := Char.toLower) hc
  rw [h, toLower_eq_self hcapital] at hlower
  exact hword hlower

theorem isDigit_range (h : isDigit c = true) : 48 ≤ c.toNat ∧ c.toNat ≤ 57 := by
  have hrange := isDigit_iff.mp h
  simp only [Char.le_def, UInt32.le_iff_toNat_le] at hrange
  exact hrange

/-- A decimal number begins with a digit or a point. -/
theorem IsScientific.exists_head {parts : Scientific} (h : IsScientific text parts) :
    ∃ c rest, text = c :: rest ∧ (isDigit c = true ∨ c = '.') := by
  have hdigits {digits rest : List Char} (hread : IsDigits digits) :
      ∃ c more, digits ++ rest = c :: more ∧ (isDigit c = true ∨ c = '.') := by
    obtain ⟨c, more, rfl⟩ := List.exists_cons_of_ne_nil hread.1
    exact ⟨c, more ++ rest, rfl, .inl (hread.2 c List.mem_cons_self)⟩
  cases h with
  | whole hwhole => exact hdigits hwhole
  | @point whole _ _ _ hread =>
      cases whole with
      | nil => exact ⟨'.', _, rfl, .inr rfl⟩
      | cons c whole => exact ⟨c, _, rfl, .inl (hread.2 c (by simp))⟩

/-- A decimal number is no word of letters. -/
theorem IsScientific.not_spells {parts : Scientific} (h : IsScientific text parts) {word : String}
    (hword : word.toList.all fun c => !isDigit c && c != '.') : ¬ Spells word text := by
  have hletter : ∀ c ∈ word.toList, isDigit c = false ∧ c ≠ '.' := by
    intro c hc
    simpa using List.all_eq_true.mp hword c hc
  obtain ⟨c, rest, rfl, hhead⟩ := h.exists_head
  intro hspells
  refine hspells.not_mem (c := c) ?_ ?_ List.mem_cons_self
  · intro hmem
    obtain hdigit | rfl := hhead
    · exact absurd hdigit (by simp [(hletter c hmem).1])
    · exact (hletter '.' hmem).2 rfl
  · obtain hdigit | rfl := hhead
    · have hrange := isDigit_range hdigit
      omega
    · decide

theorem unsignedBinary64?_eq (negative : Bool) (text : List Char) :
    unsignedBinary64? negative text =
      if Spells "inf" text ∨ Spells "infinity" text then some (.infinity negative)
      else if Spells "nan" text then some .nan
      else (scientific? text).map (Scientific.toBinary64 negative) := rfl

theorem unsignedBinary64?_eq_some_iff {negative : Bool} {number : Binary64} :
    unsignedBinary64? negative text = some number ↔ IsMagnitude negative text number := by
  rw [unsignedBinary64?_eq]
  constructor
  · intro h
    split at h
    · rename_i hword
      cases h
      exact .infinity hword
    · split at h
      · rename_i hword
        cases h
        exact .nan hword
      · obtain ⟨parts, hparts, rfl⟩ := Option.map_eq_some_iff.mp h
        exact .number (scientific?_eq_some_iff.mp hparts)
  · rintro (hword | hword | hparts)
    · rw [if_pos hword]
    · have hlower : text.map Char.toLower = "nan".toList := hword
      have hother : ¬ (Spells "inf" text ∨ Spells "infinity" text) := by
        rw [Spells, Spells, hlower]
        decide
      rw [if_neg hother, if_pos hword]
    · have hinf : ¬ (Spells "inf" text ∨ Spells "infinity" text) :=
        not_or.mpr ⟨hparts.not_spells (by decide), hparts.not_spells (by decide)⟩
      have hnan : ¬ Spells "nan" text := hparts.not_spells (by decide)
      rw [if_neg hinf, if_neg hnan, scientific?_eq_some_iff.mpr hparts]
      rfl

/-- A number without a sign begins with no sign. -/
theorem IsMagnitude.ne_sign {negative : Bool} {number : Binary64}
    (h : IsMagnitude negative text number) (rest : List Char) :
    text ≠ '+' :: rest ∧ text ≠ '-' :: rest := by
  have hword {word : String} (hspells : Spells word text) {sign : Char}
      (hsign : sign ∉ word.toList) (hcapital : ¬ (65 ≤ sign.toNat ∧ sign.toNat ≤ 90)) :
      text ≠ sign :: rest := by
    rintro rfl
    exact hspells.not_mem hsign hcapital List.mem_cons_self
  cases h with
  | infinity hspells =>
      obtain hspells | hspells := hspells
      · exact ⟨hword hspells (by decide) (by decide), hword hspells (by decide) (by decide)⟩
      · exact ⟨hword hspells (by decide) (by decide), hword hspells (by decide) (by decide)⟩
  | nan hspells =>
      exact ⟨hword hspells (by decide) (by decide), hword hspells (by decide) (by decide)⟩
  | number hparts =>
      obtain ⟨c, more, rfl, hhead⟩ := hparts.exists_head
      constructor
      · rintro ⟨⟩
        revert hhead
        decide
      · rintro ⟨⟩
        revert hhead
        decide

theorem binary64?_eq_some_iff {number : Binary64} :
    binary64? text = some number ↔ IsBinary64 text number := by
  rw [binary64?.eq_def]
  constructor
  · intro h
    split at h
    · exact .signed .minus (unsignedBinary64?_eq_some_iff.mp h)
    · exact .signed .plus (unsignedBinary64?_eq_some_iff.mp h)
    · exact .signed .none (unsignedBinary64?_eq_some_iff.mp h)
  · rintro ⟨hsign, htext⟩
    have hmade := unsignedBinary64?_eq_some_iff.mpr htext
    cases hsign with
    | minus => exact hmade
    | plus => exact hmade
    | none =>
        split
        · rename_i rest heq
          exact absurd heq (htext.ne_sign rest).2
        · rename_i rest heq
          exact absurd heq (htext.ne_sign rest).1
        · exact hmade

/-! ## Numerals and blanks -/

theorem isBlank_range (h : Text.isBlank c = true) : c.toNat ≤ 32 ∨ 127 < c.toNat := by
  simp only [Text.isBlank, Bool.or_eq_true, Bool.and_eq_true, decide_eq_true_eq, beq_iff_eq] at h
  omega

theorem IsDigits.isBlank_eq (h : IsDigits digits) : ∀ c ∈ digits, Text.isBlank c = false :=
  fun c hc => isBlank_of_isDigit (h.2 c hc)

theorem IsSign.isBlank_eq {sign : List Char} {negative : Bool} (h : IsSign sign negative) :
    ∀ c ∈ sign, Text.isBlank c = false := by
  cases h with
  | none => simp
  | plus => exact List.forall_mem_singleton.mpr (by decide)
  | minus => exact List.forall_mem_singleton.mpr (by decide)

theorem IsUnsigned.isBlank_eq {width n : Nat} (h : IsUnsigned width text n) :
    ∀ c ∈ text, Text.isBlank c = false := by
  obtain ⟨hsign, hdigits, -⟩ := h
  exact List.forall_mem_append.mpr ⟨hsign.isBlank_eq, hdigits.isBlank_eq⟩

theorem IsExponent.isBlank_eq {n : Int} (h : IsExponent text n) :
    ∀ c ∈ text, Text.isBlank c = false := by
  cases h with
  | none => simp
  | some hletter hsign hdigits =>
      refine List.forall_mem_cons.mpr ⟨?_, List.forall_mem_append.mpr
        ⟨hsign.isBlank_eq, hdigits.isBlank_eq⟩⟩
      obtain rfl | rfl := hletter
      · decide
      · decide

theorem IsScientific.isBlank_eq {parts : Scientific} (h : IsScientific text parts) :
    ∀ c ∈ text, Text.isBlank c = false := by
  cases h with
  | whole hwhole htail =>
      exact List.forall_mem_append.mpr ⟨hwhole.isBlank_eq, htail.isBlank_eq⟩
  | point hdigits htail =>
      obtain ⟨hwhole, hfraction⟩ := List.forall_mem_append.mp hdigits.isBlank_eq
      exact List.forall_mem_append.mpr ⟨hwhole, List.forall_mem_cons.mpr
        ⟨by decide, List.forall_mem_append.mpr ⟨hfraction, htail.isBlank_eq⟩⟩⟩

theorem Spells.isBlank_eq {word : String} (h : Spells word text)
    (hword : word.toList.all fun c => !Text.isBlank c) : ∀ c ∈ text, Text.isBlank c = false := by
  intro c hc
  cases hblank : Text.isBlank c with
  | false => rfl
  | true =>
      have hrange := isBlank_range hblank
      refine absurd hc (h.not_mem ?_ (by omega))
      intro hmem
      have hletter := List.all_eq_true.mp hword c hmem
      rw [hblank] at hletter
      cases hletter

theorem IsBinary64.isBlank_eq {number : Binary64} (h : IsBinary64 text number) :
    ∀ c ∈ text, Text.isBlank c = false := by
  obtain ⟨hsign, htext⟩ := h
  refine List.forall_mem_append.mpr ⟨hsign.isBlank_eq, ?_⟩
  cases htext with
  | infinity hword =>
      obtain hword | hword := hword
      · exact hword.isBlank_eq (by decide)
      · exact hword.isBlank_eq (by decide)
  | nan hword => exact hword.isBlank_eq (by decide)
  | number hparts => exact hparts.isBlank_eq

/-- A text is read behind trimming exactly if it is a numeral with blanks around it. -/
theorem read_trim_iff {α : Type} {read : List Char → Option α}
    {spells : List Char → α → Prop}
    (hread : ∀ text value, read text = some value ↔ spells text value)
    (hblank : ∀ text value, spells text value → ∀ c ∈ text, Text.isBlank c = false)
    {value : α} :
    read (Text.trim text) = some value ↔ ∃ body, Text.Pads text body ∧ spells body value := by
  rw [hread]
  constructor
  · intro h
    exact ⟨_, Text.pads_trim text, h⟩
  · rintro ⟨body, hpads, hspells⟩
    rwa [hpads.trim_eq (hblank body value hspells)]

end Numeral

end MarketTape
