import MarketTape.Path

/-!
# Paths with longer names

What is written behind a path belongs to its last part, as long as no slash stands
in it.
-/

namespace MarketTape.Path

theorem exists_split_append {suffix : List Char} (h : '/' ∉ suffix) (text : List Char) :
    ∃ front last, split text = front ++ [last] ∧
      split (text ++ suffix) = front ++ [last ++ suffix] := by
  have hsuffix {tail : List Char} (htail : '/' ∉ tail) : split tail = [tail] := by
    induction tail with
    | nil => rfl
    | cons c tail ih =>
        rw [List.mem_cons, not_or] at htail
        rw [split, if_neg (Ne.symm htail.1), ih htail.2]
  induction text with
  | nil => exact ⟨[], [], rfl, hsuffix h⟩
  | cons c text ih =>
      obtain ⟨front, last, htext, hlonger⟩ := ih
      rw [List.cons_append, split, split, htext, hlonger]
      by_cases hslash : c = '/'
      · rw [if_pos hslash, if_pos hslash]
        exact ⟨[] :: front, last, rfl, rfl⟩
      · rw [if_neg hslash, if_neg hslash]
        cases front with
        | nil => exact ⟨[], c :: last, rfl, rfl⟩
        | cons part front => exact ⟨(c :: part) :: front, last, rfl, rfl⟩

/-- A name that is lengthened is the last part of a path that is. -/
theorem exists_parts_append {suffix : String} (h : '/' ∉ suffix.toList) (path : String) :
    ∃ front last, parts path = front ++ [last] ∧
      parts (path ++ suffix) = front ++ [last ++ suffix] := by
  obtain ⟨front, last, hpath, hlonger⟩ := exists_split_append h path.toList
  refine ⟨front.map String.ofList, String.ofList last, ?_, ?_⟩
  · rw [parts, hpath, List.map_append]
    rfl
  · rw [parts, String.toList_append, hlonger, List.map_append, List.map_singleton,
      String.ofList_append, String.ofList_toList]

theorem isRooted_append {path : String} (hne : path ≠ "") (suffix : String) :
    isRooted (path ++ suffix) = isRooted path := by
  obtain ⟨c, rest, hlist⟩ := List.exists_cons_of_ne_nil (mt String.toList_eq_nil_iff.mp hne)
  rw [isRooted, isRooted, String.toList_append, hlist]
  rfl

end MarketTape.Path
