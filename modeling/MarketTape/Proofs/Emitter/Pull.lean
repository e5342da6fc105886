import MarketTape.Proofs.Settings.Run

/-!
# Ways to draw records from an emitter

Records can be asked for by the tick, one at a time, a few at a time, or by runs
into sinks. Whichever calls are made in whichever order, they read the one row of
ticks that the emitter would make anyway: a call begins where the one before it
ended, and keeps nothing of its own behind.
-/

namespace MarketTape

/-- A call that asks an emitter for records. -/
inductive Pull : Type 1 where
  | tick
  | record
  | take (count : ℕ)
  | run {κ : Type} [RecordSink κ] (count : ℕ) (sink : κ)

namespace Pull

/-- How many ticks a call asks for. -/
def count : Pull → ℕ
  | .tick => 1
  | .record => 1
  | .take count => count
  | @run _ _ count _ => count

/-- The sink of a run never fails, whatever is asked of it. -/
def Unfailing : Pull → Prop
  | @run κ _ _ sink => ∃ sound : κ → Prop, Reliable sound ∧ sound sink
  | _ => True

end Pull

namespace Emitter

variable {σ : Type} [DrawSource σ] {first last : Emitter σ} {records : List Record}

/-- The records that a call delivers, to its caller or to the sink of its run, and
the emitter it leaves. Nothing is told of a call that ends early. -/
def answer (emitter : Emitter σ) : Pull → Option (List Record × Emitter σ)
  | .tick =>
    match emitter.next with
    | (.tick record _, after) => some ([record], after)
    | _ => none
  | .record =>
    match emitter.take 1 with
    | (records, none, after) => some (records, after)
    | _ => none
  | .take count =>
    match emitter.take count with
    | (records, none, after) => some (records, after)
    | _ => none
  | @Pull.run _ _ count sink =>
    match emitter.run count sink with
    | ⟨.ok _, after, _⟩ => some (emitter.held count sink, after)
    | _ => none

/-- The records of some calls in a row, unless one of them ends early. -/
def answers : Emitter σ → List Pull → Option (List Record × Emitter σ)
  | emitter, [] => some ([], emitter)
  | emitter, pull :: pulls =>
    match emitter.answer pull with
    | some (records, after) =>
      (answers after pulls).map fun (more, last) => (records ++ more, last)
    | none => none

/-! ## Calls and ticks -/

/-- A call that no sink can fail delivers the records of as many ticks as it asks
for, whichever call it is. -/
theorem answer_eq_some_iff {pull : Pull} (h : pull.Unfailing) :
    first.answer pull = some (records, last) ↔
      ∃ ticks, Makes first ticks last ∧ ticks.length = pull.count ∧
        ticks.map Prod.fst = records := by
  have htake (count : ℕ) :
      (match first.take count with
        | (records, none, after) => some (records, after)
        | _ => none) = some (records, last) ↔ first.take count = (records, none, last) := by
    constructor
    · intro hsome
      split at hsome
      · rename_i heq
        rw [heq]
        cases hsome
        rfl
      · cases hsome
    · intro heq
      rw [heq]
  cases pull with
  | tick =>
      rw [answer, ← take_eq_iff, Pull.count, take]
      split
      · rename_i record book after hnext
        rw [hnext]
        simp [take]
      · rename_i hnot
        constructor
        · intro hsome
          cases hsome
        · intro heq
          split at heq
          · rename_i hnext
            exact absurd hnext (hnot _ _ _)
          · cases heq
  | record => exact (htake 1).trans take_eq_iff
  | take count => exact (htake count).trans take_eq_iff
  | run count sink =>
      obtain ⟨sound, hreliable, hsound⟩ := h
      rw [answer, Pull.count]
      constructor
      · intro hsome
        split at hsome
        · rename_i stats after final hrun
          obtain ⟨ticks, written, hmakes, rfl, hwrite, hflush, rfl⟩ := run_eq_ok_iff.mp hrun
          cases hsome
          exact ⟨ticks, hmakes, rfl, (held_of_makes hmakes hwrite).symm⟩
        · cases hsome
      · rintro ⟨ticks, hmakes, rfl, rfl⟩
        obtain ⟨written, hwrite, hwritten⟩ := hreliable.writeAll hsound (ticks.map Prod.fst)
        obtain ⟨final, hflush, -⟩ := hreliable.flush hwritten
        rw [run_eq_ok_iff.mpr ⟨ticks, written, hmakes, rfl, hwrite, hflush, rfl⟩,
          held_of_makes hmakes hwrite]

/-- Calls in a row deliver the records of the ticks that they ask for together. -/
theorem answers_eq_some_iff {pulls : List Pull} (h : ∀ pull ∈ pulls, pull.Unfailing) :
    first.answers pulls = some (records, last) ↔
      ∃ ticks, Makes first ticks last ∧ ticks.length = (pulls.map Pull.count).sum ∧
        ticks.map Prod.fst = records := by
  induction pulls generalizing first records with
  | nil =>
      constructor
      · intro hsome
        cases hsome
        exact ⟨[], .nil last, rfl, rfl⟩
      · rintro ⟨ticks, hmakes, hlength, rfl⟩
        obtain rfl := List.length_eq_zero_iff.mp hlength
        cases hmakes
        rfl
  | cons pull pulls ih =>
      rw [List.forall_mem_cons] at h
      rw [answers, List.map_cons, List.sum_cons]
      constructor
      · intro hsome
        split at hsome
        · rename_i delivered middle hfront
          obtain ⟨⟨more, final⟩, hback, hpair⟩ := Option.map_eq_some_iff.mp hsome
          cases hpair
          obtain ⟨front, hmakes, hlength, rfl⟩ := (answer_eq_some_iff h.1).mp hfront
          obtain ⟨back, hmakes', hlength', rfl⟩ := (ih h.2).mp hback
          refine ⟨front ++ back, Makes.append_iff.mpr ⟨middle, hmakes, hmakes'⟩, ?_, ?_⟩
          · rw [List.length_append, hlength, hlength']
          · exact List.map_append
        · cases hsome
      · rintro ⟨ticks, hmakes, hlength, rfl⟩
        obtain ⟨front, back, middle, rfl, hfront, hback, hmakes, hmakes'⟩ :=
          hmakes.exists_split hlength
        rw [(answer_eq_some_iff h.1).mpr ⟨front, hmakes, hfront, rfl⟩]
        simp only [(ih h.2).mpr ⟨back, hmakes', hback, rfl⟩, Option.map_some, List.map_append]

/-! ## Runs into one sink in memory -/

theorem writeAll_memorySink (sink : MemorySink) (records : List Record) :
    RecordSink.writeAll sink records = (.ok (), ⟨sink.records ++ records⟩) := by
  induction records generalizing sink with
  | nil => simp
  | cons record records ih =>
      rw [RecordSink.writeAll]
      change RecordSink.writeAll (MemorySink.mk (sink.records.push record)) records = _
      rw [ih]
      simp

theorem run_memorySink_eq_ok_iff {count : ℕ} {sink final : MemorySink} {stats : Stats} :
    first.run count sink = ⟨.ok stats, last, final⟩ ↔
      ∃ ticks, Makes first ticks last ∧ ticks.length = count ∧
        final = ⟨sink.records ++ ticks.map Prod.fst⟩ ∧ stats = Stats.empty.addAll ticks := by
  rw [run_eq_ok_iff]
  simp only [writeAll_memorySink]
  constructor
  · rintro ⟨ticks, _, hmakes, hlength, ⟨⟩, ⟨⟩, hstats⟩
    exact ⟨ticks, hmakes, hlength, rfl, hstats⟩
  · rintro ⟨ticks, hmakes, hlength, rfl, hstats⟩
    exact ⟨ticks, _, hmakes, hlength, rfl, rfl, hstats⟩

/-- A run goes well exactly if two runs of its parts do, one behind the other into
the same sink. Their statistics put together are its own. -/
theorem run_add_eq_ok_iff {a b : ℕ} {sink final : MemorySink} {stats : Stats} :
    first.run (a + b) sink = ⟨.ok stats, last, final⟩ ↔
      ∃ front middle held back, first.run a sink = ⟨.ok front, middle, held⟩ ∧
        middle.run b held = ⟨.ok back, last, final⟩ ∧ stats = front.merge back := by
  have happend (front back : List (Record × Book)) :
      sink.records ++ (front ++ back).map Prod.fst =
        sink.records ++ front.map Prod.fst ++ back.map Prod.fst :=
    Array.ext' (by simp)
  simp only [run_memorySink_eq_ok_iff]
  constructor
  · rintro ⟨ticks, hmakes, hlength, rfl, rfl⟩
    obtain ⟨front, back, middle, rfl, hfront, hback, hmakes, hmakes'⟩ := hmakes.exists_split hlength
    exact ⟨_, middle, _, _, ⟨front, hmakes, hfront, rfl, rfl⟩,
      ⟨back, hmakes', hback, congrArg MemorySink.mk (happend front back), rfl⟩,
      (Stats.merge_addAll_empty front back).symm⟩
  · rintro ⟨_, middle, _, _, ⟨front, hmakes, hfront, rfl, rfl⟩,
      ⟨back, hmakes', hback, rfl, rfl⟩, rfl⟩
    refine ⟨front ++ back, Makes.append_iff.mpr ⟨middle, hmakes, hmakes'⟩, ?_,
      congrArg MemorySink.mk (happend front back).symm, Stats.merge_addAll_empty front back⟩
    rw [List.length_append, hfront, hback]

/-- A call of each kind. -/
def mixedPulls : List Pull := [.tick, .run 2 MemorySink.empty, .record, .take 3]

theorem unfailing_of_mem_mixedPulls : ∀ pull ∈ mixedPulls, pull.Unfailing := by
  simp only [mixedPulls, List.forall_mem_cons, List.not_mem_nil, false_imp_iff, implies_true,
    and_true]
  exact ⟨trivial, ⟨_, reliable_memorySink, trivial⟩, trivial, trivial⟩

end Emitter

end MarketTape
