import MarketTape.Generation
import MarketTape.Proofs.Draw.Generator
import MarketTape.Proofs.Emitter.Pull
import MarketTape.Proofs.Sink.Room
import MarketTape.Proofs.Tape.RoundTrip

/-!
# Tapes in memory

Settings that can be used make their tape in memory whatever the seed is, as records
and as the bytes of a table. Nothing of it depends on how many ticks are still to
come: a tape of fewer ticks is the beginning of the longer one.
-/

namespace MarketTape

theorem toNat_count_le {count ticks : Int64} (h : count ≤ ticks) :
    count.toInt.toNat ≤ ticks.toInt.toNat :=
  Int.toNat_le_toNat (Int64.le_iff_toInt_le.mp h)

/-- The same settings for a tape of another number of ticks. -/
def Settings.withTickCount (settings : Settings) (count : Int64) : Settings :=
  { settings with tickCount := count }

/-- Usable settings stay usable for fewer ticks. -/
theorem Settings.Usable.withTickCount {settings : Settings} (h : settings.Usable) {count : Int64}
    (hpos : 0 < count) (hle : count ≤ settings.tickCount) :
    (settings.withTickCount count).Usable where
  tickCount := hpos
  symbol := h.symbol
  fileName := h.fileName
  staysOpen := h.staysOpen
  clock := by
    have hclock := h.clock
    have hmul := Nat.mul_le_mul_right Generator.maxTimeStep (toNat_count_le hle)
    simp only [Settings.withTickCount]
    omega
  lowest_le := h.lowest_le
  le_highest := h.le_highest

/-- A table without a limit takes the records of all ticks, and nothing else. -/
theorem Emitter.Makes.exists_table {σ : Type} [DrawSource σ] {first last : Emitter σ}
    {made : List (Record × Book)} (h : Makes first made last) :
    ∃ sink bytes, first.run made.length (TableSink.start none) =
        ⟨.ok (Stats.empty.addAll made), last, sink⟩ ∧ sink.close = (.ok (), bytes) ∧
      bytes.data.toList = TableSink.tapeBytes (made.map Prod.fst) := by
  obtain ⟨written, flushed, bytes, hwrite, hflush, hclose, hbytes⟩ :=
    TableSink.exists_flushed_tape (made.map Prod.fst)
  have hrun := run_eq_ok_iff.mpr ⟨made, written, h, rfl, hwrite, hflush, rfl⟩
  exact ⟨flushed, bytes, hrun, hclose, hbytes⟩

namespace Generation

open Emitter

variable {settings : Settings} {ticks : Nat} {seed : UInt64}

theorem intoSink_of_run {κ : Type} [RecordSink κ] {sink final : κ} {stats : Stats}
    {last : Emitter (Generator Keystream)} (hticks : settings.ticks = .ok ticks)
    (hrun : (settings.emitter seed).run ticks sink = ⟨.ok stats, last, final⟩) :
    intoSink settings seed sink = (.ok stats, final) := by
  rw [intoSink, hticks]
  simp only [hrun]
  rfl

/-- What settings make of a seed in memory: the records in a list, and the bytes in a
table. -/
structure InMemory (settings : Settings) (seed : UInt64) (stats : Stats) (records : List Record)
    (bytes : ByteArray) : Prop where
  records : intoSink settings seed MemorySink.empty = (.ok stats, ⟨records.toArray⟩)
  bytes : ∃ sink, intoSink settings seed (TableSink.start none) = (.ok stats, sink) ∧
    sink.close = (.ok (), bytes)

theorem inMemory_of_makes {made : List (Record × Book)} {last : Emitter (Generator Keystream)}
    (hticks : settings.ticks = .ok made.length) (hmakes : Makes (settings.emitter seed) made last) :
    InMemory settings seed (Stats.empty.addAll made) (made.map Prod.fst)
      ⟨(TableSink.tapeBytes (made.map Prod.fst)).toArray⟩ := by
  constructor
  case records =>
    apply intoSink_of_run hticks
    exact run_memorySink_eq_ok_iff.mpr ⟨made, hmakes, rfl, by simp [MemorySink.empty], rfl⟩
  case bytes =>
    obtain ⟨sink, bytes, hrun, hclose, hbytes⟩ := hmakes.exists_table
    exact ⟨sink, intoSink_of_run hticks hrun, by rw [hclose, ← hbytes]⟩

/-- Settings that can be used make as many ticks as they ask for, whatever the seed. -/
theorem exists_makes_of_usable (h : settings.Usable) (seed : UInt64) :
    ∃ made last, Makes (settings.emitter seed) made last ∧
      made.length = settings.tickCount.toInt.toNat := by
  have hsound : (settings.emitterFrom (Generator.ofSeed seed)).Sound fun _ => True :=
    h.sound trivial
  rw [settings.emitter_eq_emitterFrom]
  obtain ⟨made, last, hmakes, hlength, -⟩ :=
    hsound.exists_makes Generator.steady settings.tickCount.toInt.toNat h.clock
  exact ⟨made, last, hmakes, hlength⟩

/-! ## Fewer ticks -/

/-- A tape of fewer ticks from the same seed is the beginning of the longer one, record
by record and byte by byte. The longer table goes on where the last row of the shorter
one ends. -/
theorem fewer_ticks (hcheck : settings.check = .ok ()) {count : Int64} (hpos : 0 < count)
    (hle : count ≤ settings.tickCount) (seed : UInt64) :
    (settings.withTickCount count).check = .ok () ∧
      ∃ stats stats' records bytes bytes', InMemory settings seed stats records bytes ∧
        InMemory (settings.withTickCount count) seed stats'
          (records.take count.toInt.toNat) bytes' ∧
        records.length = settings.tickCount.toInt.toNat ∧
        bytes.data.toList = bytes'.data.toList ++
          ((records.drop count.toInt.toNat).map TableSink.recordLine).flatMap (fun line =>
            Table.bytesOf (Table.linePieces line)) ∧
        (Table.dataRows bytes'.data.toList).map Table.RawRow.fields =
          (records.take count.toInt.toNat).map TableSink.recordLine := by
  have husable := Settings.check_eq_ok_iff.mp hcheck
  have husable' := husable.withTickCount hpos hle
  refine ⟨Settings.check_eq_ok_iff.mpr husable', ?_⟩
  obtain ⟨made, last, hmakes, hlength⟩ := exists_makes_of_usable husable seed
  -- The shorter tape starts from the same emitter, so its ticks are the front of the longer one's.
  obtain ⟨front, back, middle, rfl, hfront, -, hmakes', -⟩ :=
    hmakes.exists_split (hlength.trans (Nat.add_sub_cancel' (toNat_count_le hle)).symm)
  have hlong := inMemory_of_makes (Settings.ticks_eq_ok_iff.mpr ⟨husable, hlength⟩) hmakes
  have hticks' : (settings.withTickCount count).ticks = .ok front.length :=
    Settings.ticks_eq_ok_iff.mpr ⟨husable', hfront⟩
  have hshort := inMemory_of_makes hticks' hmakes'
  have htake : ((front ++ back).map Prod.fst).take count.toInt.toNat = front.map Prod.fst := by
    rw [← hfront, ← List.map_take, List.take_left]
  have hdrop : ((front ++ back).map Prod.fst).drop count.toInt.toNat = back.map Prod.fst := by
    rw [← hfront, ← List.map_drop, List.drop_left]
  refine ⟨_, _, _, _, _, hlong, by rw [htake]; exact hshort, ?_, ?_, ?_⟩
  · rw [List.length_map, hlength]
  · rw [hdrop, List.map_append]
    exact TableSink.tapeBytes_append _ _
  · rw [htake]
    exact Tape.fields_dataRows_tapeBytes _

theorem fewer_ticks_standard :
    Settings.standard.check = .ok () ∧ (0 : Int64) < 3 ∧ 3 ≤ Settings.standard.tickCount ∧
      (Settings.standard.withTickCount 3).check = .ok () ∧
      ∃ stats stats' records bytes bytes', InMemory Settings.standard 7 stats records bytes ∧
        InMemory (Settings.standard.withTickCount 3) 7 stats' (records.take 3) bytes' ∧
        records.length = 1000 ∧
        bytes.data.toList = bytes'.data.toList ++
          ((records.drop 3).map TableSink.recordLine).flatMap (fun line =>
            Table.bytesOf (Table.linePieces line)) ∧
        (Table.dataRows bytes'.data.toList).map Table.RawRow.fields =
          (records.take 3).map TableSink.recordLine := by
  have hcheck := Settings.check_eq_ok_iff.mpr Settings.usable_standard
  have hpos : (0 : Int64) < 3 := by decide
  have hle : (3 : Int64) ≤ Settings.standard.tickCount := by decide
  exact ⟨hcheck, hpos, hle, fewer_ticks hcheck hpos hle 7⟩

end Generation

end MarketTape
