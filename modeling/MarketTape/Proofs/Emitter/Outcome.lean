import MarketTape.Draw.Script
import MarketTape.Emitter.Run
import MarketTape.Proofs.Emitter.Ticks
import MarketTape.Proofs.Sink.Logged
import MarketTape.Proofs.Tally
import Mathlib.Data.ENat.Basic

/-!
# How a run ends

A run stops for one of three reasons: it has made its ticks, the sink refuses a
record, or the clock runs out. `runFrom_of_makes` follows a run through ticks that
nothing interrupts; what happens at the tick behind them decides the outcome.
-/

namespace MarketTape

namespace Emitter

variable {σ κ : Type} [DrawSource σ] [RecordSink κ]
variable {first last after : Emitter σ} {ticks : List (Record × Book)} {sink sink' sink'' : κ}
variable {record : Record} {book : Book} {error : SinkError}

/-- Ticks whose records the sink accepts bring a run forward by their number. -/
theorem runFrom_of_makes (h : Makes first ticks last)
    (hwrite : RecordSink.writeAll sink (ticks.map Prod.fst) = (.ok (), sink'))
    (stats : Stats) (count : Nat) :
    runFrom (ticks.length + count) stats first sink =
      runFrom count (stats.addAll ticks) last sink' := by
  induction h generalizing stats sink with
  | nil =>
      obtain rfl : sink = sink' := (Prod.mk.inj hwrite).2
      rw [List.length_nil, Nat.zero_add, Stats.addAll_nil]
  | cons hnext _ ih =>
      rw [List.map_cons, RecordSink.writeAll] at hwrite
      split at hwrite
      · rename_i result written hfirst
        rw [List.length_cons, Nat.add_right_comm, runFrom, hnext]
        simp only [hfirst]
        exact ih hwrite _
      · cases hwrite

/-! ## The three ends -/

/-- A run whose records are all accepted ends with the flush. -/
theorem run_of_makes (h : Makes first ticks last)
    (hwrite : RecordSink.writeAll sink (ticks.map Prod.fst) = (.ok (), sink')) :
    first.run ticks.length sink =
      match RecordSink.flush sink' with
      | (.ok _, sink) => ⟨.ok (Stats.empty.addAll ticks), last, sink⟩
      | (.error error, sink) => ⟨.error (.sink error), last, sink⟩ :=
  runFrom_of_makes h hwrite .empty 0

/-- A refused record ends the run behind the tick that made it. -/
theorem run_of_refused (h : Makes first ticks last)
    (hwrite : RecordSink.writeAll sink (ticks.map Prod.fst) = (.ok (), sink'))
    (hnext : last.next = (.tick record book, after))
    (hrefused : RecordSink.write sink' record = (.error error, sink'')) (count : Nat) :
    first.run (ticks.length + (count + 1)) sink = ⟨.error (.sink error), after, sink''⟩ := by
  rw [run, runFrom_of_makes h hwrite, runFrom, hnext]
  simp only [hrefused]

/-- A clock that runs out ends the run, which tells how many records there are. -/
theorem run_of_exhausted (h : Makes first ticks last)
    (hwrite : RecordSink.writeAll sink (ticks.map Prod.fst) = (.ok (), sink'))
    (hnext : last.next = (.exhausted, after)) (count : Nat) :
    first.run (ticks.length + (count + 1)) sink =
      ⟨.error (.clockExhausted ticks.length), after, sink'⟩ := by
  rw [run, runFrom_of_makes h hwrite, runFrom, hnext]
  simp only [Stats.total_addAll, Stats.total_empty, Nat.zero_add]

/-- The rest of a run goes well by making its ticks, having all of their records
accepted, and having the flush granted. -/
theorem exists_makes_of_runFrom {count : ℕ} {stats total : Stats}
    (h : runFrom count stats first sink = ⟨.ok total, last, sink''⟩) :
    ∃ ticks sink', Makes first ticks last ∧ ticks.length = count ∧
      RecordSink.writeAll sink (ticks.map Prod.fst) = (.ok (), sink') ∧
      RecordSink.flush sink' = (.ok (), sink'') ∧ total = stats.addAll ticks := by
  induction count generalizing stats first sink with
  | zero =>
      rw [runFrom] at h
      split at h
      · rename_i result flushed hflush
        cases h
        exact ⟨[], sink, .nil last, rfl, rfl, hflush, rfl⟩
      · cases h
  | succ count ih =>
      rw [runFrom] at h
      split at h
      · rename_i record book after hnext
        split at h
        · rename_i result written hwrite
          obtain ⟨ticks, sink', hmakes, hlength, hrest, hflush, htotal⟩ := ih h
          refine ⟨(record, book) :: ticks, sink', .cons hnext hmakes, congrArg Nat.succ hlength, ?_,
            hflush, htotal⟩
          rw [List.map_cons, RecordSink.writeAll, hwrite]
          exact hrest
        · cases h
      · cases h
      · cases h

theorem run_eq_ok_iff {count : ℕ} {stats : Stats} :
    first.run count sink = ⟨.ok stats, last, sink''⟩ ↔
      ∃ ticks sink', Makes first ticks last ∧ ticks.length = count ∧
        RecordSink.writeAll sink (ticks.map Prod.fst) = (.ok (), sink') ∧
        RecordSink.flush sink' = (.ok (), sink'') ∧ stats = Stats.empty.addAll ticks := by
  constructor
  · exact exists_makes_of_runFrom
  · rintro ⟨ticks, sink', hmakes, rfl, hwrite, hflush, rfl⟩
    rw [run_of_makes hmakes hwrite, hflush]

/-! ## Calls on the sink -/

/-- The calls that a run makes on its sink, in order. -/
def calls (ticks : Nat) (first : Emitter σ) (sink : κ) : List SinkCall :=
  (first.run ticks (Logged.start sink)).sink.calls

/-- The records that a run makes its sink keep, in order. -/
def held (ticks : Nat) (first : Emitter σ) (sink : κ) : List Record :=
  (first.calls ticks sink).filterMap SinkCall.kept

/-- A run whose records are all accepted asks for the flush behind them. -/
theorem calls_of_makes (h : Makes first ticks last)
    (hwrite : RecordSink.writeAll sink (ticks.map Prod.fst) = (.ok (), sink'))
    {flushed : Except SinkError Unit} (hflush : RecordSink.flush sink' = (flushed, sink'')) :
    first.calls ticks.length sink = (ticks.map Prod.fst).map .accepted ++ [.flush flushed] := by
  have hlogged := run_of_makes h (Logged.writeAll_eq [] hwrite)
  rw [Logged.flush_eq hflush] at hlogged
  rw [calls, Logged.start, hlogged]
  cases flushed <;> simp

theorem held_of_makes (h : Makes first ticks last)
    (hwrite : RecordSink.writeAll sink (ticks.map Prod.fst) = (.ok (), sink')) :
    first.held ticks.length sink = ticks.map Prod.fst := by
  rw [held, calls_of_makes h hwrite rfl, List.filterMap_append, SinkCall.filterMap_kept_accepted]
  simp

/-- To keep a list of the calls changes nothing about a run. -/
theorem run_logged (ticks : Nat) (first : Emitter σ) (sink : κ) :
    first.run ticks sink =
      { outcome := (first.run ticks (Logged.start sink)).outcome
        emitter := (first.run ticks (Logged.start sink)).emitter
        sink := (first.run ticks (Logged.start sink)).sink.inner } := by
  suffices h : ∀ stats (calls : List SinkCall),
      runFrom ticks stats first sink =
        { outcome := (runFrom ticks stats first (Logged.mk sink calls)).outcome
          emitter := (runFrom ticks stats first (Logged.mk sink calls)).emitter
          sink := (runFrom ticks stats first (Logged.mk sink calls)).sink.inner } from
    h .empty []
  induction ticks generalizing first sink with
  | zero =>
      intro stats calls
      rw [runFrom, runFrom]
      cases hflush : RecordSink.flush sink with
      | mk result inner =>
          rw [Logged.flush_eq hflush]
          cases result <;> rfl
  | succ ticks ih =>
      intro stats calls
      rw [runFrom, runFrom]
      split
      · rename_i record book after hnext
        cases hwrite : RecordSink.write sink record with
        | mk result inner =>
            rw [Logged.write_eq hwrite]
            cases result with
            | ok => exact ih after inner _ _
            | error => rfl
      · rfl
      · rfl

/-! ## The first thing that ends a run -/

/-- How many ticks an emitter makes before its clock runs out, if ever; none of
them meets a crossed book. -/
structure LastsFor (first : Emitter σ) (life : ℕ∞) : Prop where
  makes : ∀ count : ℕ, count ≤ life → (first.take count).2.1 = none
  ends : ∀ count : ℕ, life < count → (first.take count).2.1 = some .exhausted

/-- Which of the records that an emitter makes is the first that a sink refuses,
counted from 1, if any. -/
def RefusedAt (first : Emitter σ) (sink : κ) (failure : ℕ∞) : Prop :=
  ∀ count : ℕ, (first.take count).2.1 = none →
    ((RecordSink.writeAll sink (first.take count).1).1 = .ok () ↔ count < failure)

theorem lastsFor_of_take {count : ℕ} (h : (first.take count).2.1 = none)
    (hend : (first.take (count + 1)).2.1 = some .exhausted) : first.LastsFor count := by
  constructor
  · intro n hn
    rw [Nat.cast_le] at hn
    obtain ⟨more, rfl⟩ := Nat.exists_eq_add_of_le hn
    cases htake : (first.take n).2.1 with
    | none => rfl
    | some emission =>
        rw [take_of_ending htake more, htake] at h
        cases h
  · intro n hn
    rw [Nat.cast_lt] at hn
    obtain ⟨more, rfl⟩ := Nat.exists_eq_add_of_le (Nat.succ_le_of_lt hn)
    rw [take_of_ending hend more, hend]

/-- Every emitter that meets no crossed book has a life, which may be endless. -/
theorem exists_lastsFor (h : ∀ count book, (first.take count).2.1 ≠ some (.crossed book)) :
    ∃ life, first.LastsFor life := by
  by_cases hends : ∃ count, (first.take count).2.1 ≠ none
  · obtain ⟨hfound, hleast⟩ := (Nat.find_eq_iff hends).mp rfl
    cases hcount : Nat.find hends with
    | zero => exact absurd rfl (hcount ▸ hfound)
    | succ before =>
        rw [hcount] at hfound hleast
        obtain ⟨emission, hemission⟩ := Option.ne_none_iff_exists'.mp hfound
        refine ⟨before, lastsFor_of_take (not_not.mp (hleast before (Nat.lt_succ_self _))) ?_⟩
        obtain rfl | ⟨book, rfl⟩ := take_ending hemission
        · exact hemission
        · exact absurd hemission (h _ book)
  · simp only [not_exists, not_not] at hends
    refine ⟨⊤, fun count _ => hends count, ?_⟩
    intro count hlt
    exact absurd hlt not_top_lt

theorem refusedAt_of_writeAll {count : ℕ}
    (h : (RecordSink.writeAll sink (first.take count).1).1 = .ok ())
    (hrefused : (RecordSink.writeAll sink (first.take (count + 1)).1).1 ≠ .ok ()) :
    first.RefusedAt sink (count + 1 : ℕ) := by
  have hshorter {front whole : List Record} (hfront : front <+: whole)
      (hok : (RecordSink.writeAll sink whole).1 = .ok ()) :
      (RecordSink.writeAll sink front).1 = .ok () := by
    obtain ⟨back, rfl⟩ := hfront
    rw [RecordSink.writeAll_append] at hok
    split at hok
    · rename_i result written hwrite
      rw [hwrite]
    · cases hok
  intro n _
  rw [Nat.cast_lt]
  constructor
  · intro hok
    apply Nat.lt_of_not_le
    intro hle
    obtain ⟨more, rfl⟩ := Nat.exists_eq_add_of_le hle
    exact hrefused (hshorter (take_front first (count + 1) more) hok)
  · intro hlt
    obtain ⟨more, rfl⟩ := Nat.exists_eq_add_of_le (Nat.lt_succ_iff.mp hlt)
    exact hshorter (take_front first n more) h

/-- Every sink has a first record that it refuses of an emitter, or takes all. -/
theorem exists_refusedAt (first : Emitter σ) (sink : κ) :
    ∃ failure, first.RefusedAt sink failure := by
  by_cases hrefuses : ∃ count, (RecordSink.writeAll sink (first.take count).1).1 ≠ .ok ()
  · obtain ⟨hfound, hleast⟩ := (Nat.find_eq_iff hrefuses).mp rfl
    cases hcount : Nat.find hrefuses with
    | zero => exact absurd rfl (hcount ▸ hfound)
    | succ before =>
        rw [hcount] at hfound hleast
        exact ⟨_, refusedAt_of_writeAll (not_not.mp (hleast before (Nat.lt_succ_self _))) hfound⟩
  · simp only [not_exists, not_not] at hrefuses
    refine ⟨⊤, ?_⟩
    intro count _
    exact iff_of_true (hrefuses count) (ENat.natCast_lt_top count)

/-- The run makes all its ticks, writes each record, and flushes the sink once;
the flush decides the outcome. -/
structure FlushedAfter (ticks : ℕ) (first : Emitter σ) (sink : κ)
    (flushed : Except SinkError Unit) : Prop where
  length : (first.take ticks).1.length = ticks
  calls : first.calls ticks sink = (first.take ticks).1.map .accepted ++ [.flush flushed]
  held : first.held ticks sink = (first.take ticks).1
  emitter : (first.run ticks sink).emitter = (first.take ticks).2.2
  outcome_ok : flushed = .ok () ↔ ∃ stats, (first.run ticks sink).outcome = .ok stats
  outcome_error : ∀ error, flushed = .error error →
    (first.run ticks sink).outcome = .error (.sink error)

/-- The run ends when the sink refuses the record of its last tick, the one that
`count` counts, and does not flush. -/
structure RefusedBehind (ticks count : ℕ) (first : Emitter σ) (sink : κ) (record : Record)
    (error : SinkError) : Prop where
  pos : 0 < count
  made : (first.take count).1 = (first.take (count - 1)).1 ++ [record]
  length : (first.take (count - 1)).1.length = count - 1
  calls : first.calls ticks sink =
    (first.take (count - 1)).1.map .accepted ++ [.write record (.error error)]
  held : first.held ticks sink = (first.take (count - 1)).1
  emitter : (first.run ticks sink).emitter = (first.take count).2.2
  outcome : (first.run ticks sink).outcome = .error (.sink error)

/-- The run ends with an exhausted clock after `count` records that were all
written, and does not flush. -/
structure RunsOutAfter (ticks count : ℕ) (first : Emitter σ) (sink : κ) : Prop where
  length : (first.take count).1.length = count
  calls : first.calls ticks sink = (first.take count).1.map .accepted
  held : first.held ticks sink = (first.take count).1
  clock : (first.run ticks sink).emitter.clock = (first.take count).2.2.clock
  walk : (first.run ticks sink).emitter.walk = (first.take count).2.2.walk
  outcome : (first.run ticks sink).outcome = .error (.clockExhausted count)

variable {life failure : ℕ∞}

/-- Fewer ticks than the first refused write takes leave a sink that accepted all
their records. -/
theorem exists_accepted {count : ℕ} (hfailure : first.RefusedAt sink failure)
    (hmade : (first.take count).2.1 = none) (hlt : count < failure) :
    ∃ made last sink', Makes first made last ∧ made.length = count ∧
      first.take count = (made.map Prod.fst, none, last) ∧
        RecordSink.writeAll sink (made.map Prod.fst) = (.ok (), sink') := by
  obtain ⟨made, last, hmakes, hlength⟩ := exists_makes hmade
  have htake := hlength ▸ hmakes.take_length
  refine ⟨made, last, (RecordSink.writeAll sink (made.map Prod.fst)).2, hmakes, hlength, htake, ?_⟩
  have hok := (hfailure count hmade).mpr hlt
  rw [htake] at hok
  exact Prod.ext hok rfl

theorem exists_flushedAfter (hlife : first.LastsFor life) (hfailure : first.RefusedAt sink failure)
    {ticks : ℕ} (hle : ticks ≤ life) (hlt : ticks < failure) :
    ∃ flushed, FlushedAfter ticks first sink flushed := by
  obtain ⟨made, last, sink', hmakes, hlength, htake, hwrite⟩ :=
    exists_accepted hfailure (hlife.makes ticks hle) hlt
  cases hflush : RecordSink.flush sink' with
  | mk flushed sink'' =>
      have hrun := run_of_makes hmakes hwrite
      rw [hlength, hflush] at hrun
      refine ⟨flushed, ?_⟩
      constructor
      case length => rw [htake, List.length_map, hlength]
      case calls => rw [htake, ← hlength, calls_of_makes hmakes hwrite hflush]
      case held => rw [htake, ← hlength, held_of_makes hmakes hwrite]
      case emitter =>
        rw [hrun, htake]
        cases flushed <;> rfl
      case outcome_ok =>
        rw [hrun]
        cases flushed <;> simp
      case outcome_error =>
        rintro error rfl
        rw [hrun]

theorem exists_refusedBehind (hlife : first.LastsFor life)
    (hfailure : first.RefusedAt sink failure) {ticks count : ℕ} (hcount : failure = count)
    (hticks : count ≤ ticks) (hle : count ≤ life) :
    ∃ record error, RefusedBehind ticks count first sink record error := by
  -- No records at all are never refused.
  have hpos : 0 < count := by
    have hzero := (hfailure 0 rfl).mp rfl
    rwa [hcount, Nat.cast_lt] at hzero
  obtain ⟨before, rfl⟩ : ∃ before, count = before + 1 := ⟨count - 1, by omega⟩
  have hbefore : (before : ℕ∞) < failure := by
    rw [hcount, Nat.cast_lt]
    omega
  have hmade := hlife.makes (before + 1) hle
  obtain ⟨made, last, sink', hmakes, hlength, htake, hwrite⟩ := exists_accepted hfailure
    (hlife.makes before (le_trans (Nat.cast_le.mpr (Nat.le_succ before)) hle)) hbefore
  have hone := hlength ▸ hmakes.take_add 1
  have hnone : (last.take 1).2.1 = none := by rwa [hone] at hmade
  obtain ⟨record, book, hnext, hrecord⟩ := take_one hnone
  rw [hrecord] at hone
  have hnot := mt (hfailure (before + 1) hmade).mp (by rw [hcount]; exact lt_irrefl _)
  rw [hone, RecordSink.writeAll_append, hwrite] at hnot
  simp only [RecordSink.writeAll_singleton] at hnot
  cases hrefused : RecordSink.write sink' record with
  | mk result sink'' =>
      cases result with
      | ok => exact absurd (congrArg Prod.fst hrefused) hnot
      | error error =>
          obtain ⟨more, hmore⟩ := Nat.exists_eq_add_of_le hticks
          have hsplit : ticks = made.length + (more + 1) := by omega
          have hrun := run_of_refused hmakes hwrite hnext hrefused more
          have hlogged := run_of_refused hmakes (Logged.writeAll_eq [] hwrite) hnext
            (Logged.write_eq hrefused) more
          rw [← hsplit] at hrun hlogged
          have hcalls : first.calls ticks sink =
              (made.map Prod.fst).map .accepted ++ [.write record (.error error)] := by
            rw [calls, Logged.start, hlogged, List.nil_append]
          refine ⟨record, error, ?_⟩
          constructor
          case pos => exact hpos
          case made => rw [hone, Nat.add_sub_cancel, htake]
          case length => rw [Nat.add_sub_cancel, htake, List.length_map, hlength]
          case calls => rw [hcalls, Nat.add_sub_cancel, htake]
          case held =>
            rw [held, hcalls, Nat.add_sub_cancel, htake, List.filterMap_append,
              SinkCall.filterMap_kept_accepted]
            simp
          case emitter => rw [hrun, hone]
          case outcome => rw [hrun]

theorem runsOutAfter (hlife : first.LastsFor life) (hfailure : first.RefusedAt sink failure)
    {ticks count : ℕ} (hcount : life = count) (hticks : count < ticks) (hlt : count < failure) :
    RunsOutAfter ticks count first sink := by
  obtain ⟨made, last, sink', hmakes, hlength, htake, hwrite⟩ :=
    exists_accepted hfailure (hlife.makes count (le_of_eq hcount.symm)) hlt
  have hends := hlife.ends (count + 1) (by rw [hcount, Nat.cast_lt]; omega)
  rw [← hlength, hmakes.take_add 1] at hends
  have hnext := take_one_ending hends
  obtain ⟨-, hclock, hwalk⟩ := (Step.of_next hnext).exhausted_eq
  obtain ⟨more, hmore⟩ := Nat.exists_eq_add_of_le (Nat.succ_le_of_lt hticks)
  have hsplit : ticks = made.length + (more + 1) := by omega
  have hrun := run_of_exhausted hmakes hwrite hnext more
  have hlogged := run_of_exhausted hmakes (Logged.writeAll_eq [] hwrite) hnext more
  rw [← hsplit] at hrun hlogged
  have hcalls : first.calls ticks sink = (made.map Prod.fst).map .accepted := by
    rw [calls, Logged.start, hlogged, List.nil_append]
  constructor
  case length => rw [htake, List.length_map, hlength]
  case calls => rw [hcalls, htake]
  case held => rw [held, hcalls, htake, SinkCall.filterMap_kept_accepted]
  case clock => rw [hrun, htake, hclock]
  case walk => rw [hrun, htake, hwalk]
  case outcome => rw [hrun, hlength]

/-- Whatever ends a run, the sink holds the records of some first ticks. -/
theorem exists_held (hlife : first.LastsFor life) (hfailure : first.RefusedAt sink failure)
    (ticks : ℕ) : ∃ count, count ≤ ticks ∧ first.held ticks sink = (first.take count).1 := by
  by_cases hrefused : failure ≤ ticks ∧ failure ≤ life
  · obtain ⟨count, hcount⟩ := ENat.ne_top_iff_exists.mp (ne_top_of_le_ne_top (by simp) hrefused.1)
    rw [← hcount, Nat.cast_le] at hrefused
    obtain ⟨record, error, hend⟩ :=
      exists_refusedBehind hlife hfailure hcount.symm hrefused.1 hrefused.2
    exact ⟨count - 1, by omega, hend.held⟩
  · by_cases hle : ticks ≤ life
    · have hlt : ticks < failure := by
        apply not_le.mp
        intro h
        exact hrefused ⟨h, le_trans h hle⟩
      obtain ⟨flushed, hend⟩ := exists_flushedAfter hlife hfailure hle hlt
      exact ⟨ticks, Nat.le_refl _, hend.held⟩
    · obtain ⟨count, hcount⟩ := ENat.ne_top_iff_exists.mp (ne_top_of_lt (not_le.mp hle))
      have hticks : count < ticks := by
        rw [← hcount, Nat.cast_le] at hle
        omega
      have hlt : count < failure := by
        rw [hcount]
        apply not_le.mp
        intro h
        exact hrefused ⟨le_trans h (le_of_lt (not_le.mp hle)), h⟩
      exact ⟨count, Nat.le_of_lt hticks, (runsOutAfter hlife hfailure hcount.symm hticks hlt).held⟩

/-- An emitter of quotes whose clock has room for two ticks. -/
def nearEnd : Emitter Script where
  symbol := standardSymbol
  clock := 18446744073684551615
  walk := Walk.standard
  source :=
    { timeSteps := .ofList [10000000]
      drifts := .ofList [.zero false]
      classifiers := .ofList [.zero false]
      sides := .ofList []
      bookSizes := .ofList [1000]
      tradeSizes := .ofList [] }

/-- A sink in memory that refuses its second record. -/
def refusing : GuardedSink MemorySink := .start .empty (some 2) false

end Emitter

end MarketTape
