import MarketTape.Proofs.Binary64.Extent
import MarketTape.Stats
import MarketTape.Walk
import Mathlib.Algebra.GroupWithZero.Nat
import Mathlib.Data.List.Chain

/-!
# Statistics of many ticks

The statistics of a run are those of its ticks added up one by one. What they
come to is read off the list of ticks: the number of records, the sum of the
sizes traded, and the timestamps at both ends. Ticks that are counted in two parts
come to the same, once the statistics of the parts are put together.
-/

namespace MarketTape

/-- The size that a record trades, nothing for a quote. -/
def Record.traded : Record → Nat
  | .quote _ => 0
  | .trade t => t.size.toNat

namespace Stats

/-- The statistics with some more ticks. -/
def addAll (stats : Stats) (ticks : List (Record × Book)) : Stats :=
  ticks.foldl (fun stats tick => stats.add tick.1 tick.2.mid) stats

variable (stats : Stats) (tick : Record × Book) (ticks : List (Record × Book))

@[simp] theorem addAll_nil : stats.addAll [] = stats := rfl

@[simp] theorem addAll_cons :
    stats.addAll (tick :: ticks) = (stats.add tick.1 tick.2.mid).addAll ticks := rfl

@[simp] theorem volume_add (record : Record) (mid : Binary64) :
    (stats.add record mid).volume = stats.volume + record.traded := by
  cases record <;> rfl

@[simp] theorem total_addAll : (stats.addAll ticks).total = stats.total + ticks.length := by
  induction ticks generalizing stats with
  | nil => rfl
  | cons tick ticks ih =>
      rw [addAll_cons, ih, total_add, List.length_cons]
      omega

@[simp] theorem volume_addAll : (stats.addAll ticks).volume =
    stats.volume + (ticks.map fun tick => tick.1.traded).sum := by
  induction ticks generalizing stats with
  | nil => rfl
  | cons tick ticks ih =>
      rw [addAll_cons, ih, volume_add, List.map_cons, List.sum_cons, Nat.add_assoc]

@[simp] theorem first_addAll : (stats.addAll ticks).first =
    stats.first.or (ticks.head?.map fun tick => tick.1.timestamp) := by
  induction ticks generalizing stats with
  | nil => simp
  | cons tick ticks ih =>
      rw [addAll_cons, ih]
      cases hfirst : stats.first <;> simp [add, hfirst]

@[simp] theorem last_addAll : (stats.addAll ticks).last =
    (ticks.getLast?.map fun tick => tick.1.timestamp).or stats.last := by
  induction ticks generalizing stats with
  | nil => simp
  | cons tick ticks ih =>
      rw [addAll_cons, ih]
      cases ticks with
      | nil => simp [add]
      | cons next rest => simp [List.getLast?_cons]

/-- How many records of a kind there are. -/
def ofKind (stats : Stats) : Kind → Nat
  | .quote => stats.quotes
  | .trade => stats.trades

theorem ofKind_addAll (kind : Kind) : (stats.addAll ticks).ofKind kind =
    stats.ofKind kind + (ticks.map Prod.fst).countP fun record => record.kind = kind := by
  induction ticks generalizing stats with
  | nil => rfl
  | cons tick ticks ih =>
      have hadd : (stats.add tick.1 tick.2.mid).ofKind kind =
          stats.ofKind kind + if tick.1.kind = kind then 1 else 0 := by
        cases kind <;> cases tick.1 <;> rfl
      rw [addAll_cons, ih, hadd, List.map_cons, List.countP_cons]
      simp only [decide_eq_true_eq]
      omega

theorem lowestMid_addAll : (stats.addAll ticks).lowestMid =
    (ticks.map fun tick => tick.2.mid).foldl Binary64.least stats.lowestMid := by
  induction ticks generalizing stats with
  | nil => rfl
  | cons tick ticks ih => exact ih _

theorem highestMid_addAll : (stats.addAll ticks).highestMid =
    (ticks.map fun tick => tick.2.mid).foldl Binary64.greatest stats.highestMid := by
  induction ticks generalizing stats with
  | nil => rfl
  | cons tick ticks ih => exact ih _

/-- Timestamps that do not go back from one tick to the next do not go back from the
first to the last. -/
theorem first_le_last {ticks : List (Record × Book)} {first last : Record × Book}
    (h : List.IsChain (· ≤ ·) (ticks.map fun tick => tick.1.timestamp))
    (hfirst : ticks.head? = some first) (hlast : ticks.getLast? = some last) :
    first.1.timestamp ≤ last.1.timestamp := by
  obtain ⟨rest, rfl⟩ := List.head?_eq_some_iff.mp hfirst
  obtain rfl | hmem := List.mem_cons.mp (List.mem_of_getLast? hlast)
  · exact UInt64.le_refl _
  · exact h.rel_cons (List.mem_map_of_mem hmem)

/-- The time span of such ticks is the last timestamp less the first. -/
theorem span_addAll {ticks : List (Record × Book)}
    (h : List.IsChain (· ≤ ·) (ticks.map fun tick => tick.1.timestamp)) :
    (empty.addAll ticks).span =
      .ok (ticks.head?.bind fun first => ticks.getLast?.map fun last =>
        last.1.timestamp.toNat - first.1.timestamp.toNat) := by
  rw [span, first_addAll, last_addAll]
  cases hfirst : ticks.head? with
  | none => rfl
  | some first =>
      cases hlast : ticks.getLast? with
      | none => rfl
      | some last => exact if_neg (UInt64.not_lt.mpr (first_le_last h hfirst hlast))

theorem addAll_append (front back : List (Record × Book)) :
    stats.addAll (front ++ back) = (stats.addAll front).addAll back :=
  List.foldl_append

/-! ## Ticks in two parts -/

/-- The statistics of some records and of others behind them, put together. -/
def merge (front back : Stats) : Stats where
  quotes := front.quotes + back.quotes
  trades := front.trades + back.trades
  volume := front.volume + back.volume
  first := front.first.or back.first
  last := back.last.or front.last
  lowestMid := front.lowestMid.least back.lowestMid
  highestMid := front.highestMid.greatest back.highestMid

theorem merge_add (front back : Stats) (record : Record) (mid : Binary64) :
    front.merge (back.add record mid) = (front.merge back).add record mid := by
  have hfirst : front.first.or (some (back.first.getD record.timestamp)) =
      some ((front.first.or back.first).getD record.timestamp) := by
    cases front.first <;> simp
  simp only [merge, add, Nat.add_assoc, hfirst, Option.some_or, Binary64.least_assoc,
    Binary64.greatest_assoc]

theorem merge_addAll (front back : Stats) :
    front.merge (back.addAll ticks) = (front.merge back).addAll ticks := by
  induction ticks generalizing back with
  | nil => rfl
  | cons tick ticks ih => rw [addAll_cons, addAll_cons, ih, merge_add]

variable {stats}

theorem merge_empty (hlow : stats.lowestMid.isNaN = false)
    (hhigh : stats.highestMid.isNaN = false) :
    stats.merge empty = stats := by
  simp only [merge, empty, Nat.add_zero, Option.or_none, Option.none_or,
    Binary64.least_infinity hlow, Binary64.greatest_infinity hhigh]

theorem isNaN_lowestMid_addAll (h : stats.lowestMid.isNaN = false) :
    (stats.addAll ticks).lowestMid.isNaN = false := by
  induction ticks generalizing stats with
  | nil => exact h
  | cons tick ticks ih => exact ih (Binary64.isNaN_least h _)

theorem isNaN_highestMid_addAll (h : stats.highestMid.isNaN = false) :
    (stats.addAll ticks).highestMid.isNaN = false := by
  induction ticks generalizing stats with
  | nil => exact h
  | cons tick ticks ih => exact ih (Binary64.isNaN_greatest h _)

/-- Ticks may be counted in two parts, and the statistics put together, whatever
their mids. -/
theorem merge_addAll_empty (front back : List (Record × Book)) :
    (empty.addAll front).merge (empty.addAll back) = empty.addAll (front ++ back) := by
  rw [merge_addAll, merge_empty (isNaN_lowestMid_addAll front rfl)
    (isNaN_highestMid_addAll front rfl), addAll_append]

end Stats

end MarketTape
