import Mathlib.Algebra.BigOperators.Intervals
import MarketTape.Proofs.Emitter.Books
import MarketTape.Proofs.Emitter.Draws

/-!
# Running out of time

With time steps that are laid down beforehand it is settled when the clock runs out: at
the first tick up to which the steps add up to more than the clock has room for. Nothing
else that is drawn has a say in it, as long as the drifts are numbers and the spread keeps
the book open. A run and ticks asked for one by one meet the same end.
-/

namespace MarketTape

/-! ## Time steps laid down beforehand -/

/-- A source whose time steps are laid down beforehand, while all else is drawn from
another source. -/
structure Paced (σ : Type) where
  steps : ℕ → UInt64
  source : σ

namespace Paced

variable {σ α : Type}

/-- A draw from the other source. -/
def pass (draw : σ → α × σ) (paced : Paced σ) : α × Paced σ :=
  let (value, source) := draw paced.source
  (value, { paced with source })

instance [DrawSource σ] : DrawSource (Paced σ) where
  timeStep paced := (paced.steps 0, { paced with steps := fun n => paced.steps (n + 1) })
  drift := pass DrawSource.drift
  classifier := pass DrawSource.classifier
  side := pass DrawSource.side
  bookSize := pass DrawSource.bookSize
  tradeSize := pass DrawSource.tradeSize

theorem pass_eq {draw : σ → α × σ} {paced paced' : Paced σ} {value : α}
    (h : paced.pass draw = (value, paced')) : draw paced.source = (value, paced'.source) := by
  cases h
  rfl

variable [DrawSource σ] {good : σ → Prop}

/-- The time steps have no say in the other draws. -/
theorem numeric (h : Numeric good) : Numeric fun paced : Paced σ => good paced.source where
  timeStep := by
    rintro paced _ _ hgood ⟨⟩
    exact hgood
  drift hgood hdraw := h.drift hgood (pass_eq hdraw)
  classifier hgood hdraw := h.classifier hgood (pass_eq hdraw)
  side hgood hdraw := h.side hgood (pass_eq hdraw)
  bookSize hgood hdraw := h.bookSize hgood (pass_eq hdraw)
  tradeSize hgood hdraw := h.tradeSize hgood (pass_eq hdraw)

/-- A tick that makes a record leaves all time steps but the first. -/
theorem steps_ofSource (paced : Paced σ) :
    (TickDraws.ofSource paced).2.steps = fun n => paced.steps (n + 1) := by
  simp only [TickDraws.ofSource]
  split <;> rfl

/-- How long the first ticks take together. -/
def span (steps : ℕ → UInt64) (count : ℕ) : ℕ := ∑ n ∈ Finset.range count, (steps n).toNat

theorem span_succ (steps : ℕ → UInt64) (count : ℕ) :
    span steps (count + 1) = (steps 0).toNat + span (fun n => steps (n + 1)) count := by
  rw [span, Finset.sum_range_succ', Nat.add_comm]
  rfl

end Paced

namespace Emitter

section Any

variable {σ κ : Type} [DrawSource σ] [RecordSink κ] {first second last : Emitter σ}
variable {record : Record} {book : Book} {count : ℕ}

/-! ## The end of the clock -/

/-- The clock runs out at one of the first ticks, and all before it make records. -/
def RunsOut (first : Emitter σ) (count : ℕ) : Prop :=
  ∃ made last after, Makes first made last ∧ made.length < count ∧ last.next = (.exhausted, after)

theorem not_runsOut_zero : ¬ first.RunsOut 0 := by
  rintro ⟨_, _, _, _, hlength, _⟩
  exact Nat.not_lt_zero _ hlength

theorem runsOut_succ_iff (hnext : first.next = (.tick record book, second)) :
    first.RunsOut (count + 1) ↔ second.RunsOut count := by
  constructor
  · rintro ⟨made, last, after, hmakes, hlength, hend⟩
    cases hmakes with
    | nil => rw [hnext] at hend; cases hend
    | cons hfirst hrest =>
        rw [hnext] at hfirst
        cases hfirst
        exact ⟨_, last, after, hrest, Nat.lt_of_succ_lt_succ hlength, hend⟩
  · rintro ⟨made, last, after, hmakes, hlength, hend⟩
    exact ⟨_, last, after, .cons hnext hmakes, Nat.succ_lt_succ hlength, hend⟩

theorem next_of_full
    (h : UInt64.size ≤ first.clock.toNat + (DrawSource.timeStep first.source).1.toNat) :
    first.next = (.exhausted, { first with source := (DrawSource.timeStep first.source).2 }) := by
  rw [next]
  exact if_neg (Nat.not_lt.mpr h)

theorem runsOut_of_exhausted {after : Emitter σ} (hnext : first.next = (.exhausted, after)) :
    first.RunsOut (count + 1) := ⟨[], first, after, .nil first, Nat.succ_pos _, hnext⟩

theorem not_runsOut_of_crossed (hnext : first.next = (.crossed book, second)) :
    ¬ first.RunsOut count := by
  rintro ⟨made, last, after, hmakes, -, hend⟩
  cases hmakes with
  | nil => rw [hnext] at hend; cases hend
  | cons hfirst hrest => rw [hnext] at hfirst; cases hfirst

/-- An end of the clock is met tick by tick exactly if the clock runs out. -/
theorem exhausted_mem_nexts_iff : .exhausted ∈ (first.nexts count).1 ↔ first.RunsOut count := by
  induction count generalizing first with
  | zero => exact iff_of_false List.not_mem_nil not_runsOut_zero
  | succ count ih =>
      rw [nexts]
      cases hnext : first.next with
      | mk emission second =>
          cases emission with
          | tick record book =>
              rw [runsOut_succ_iff hnext, ← ih]
              simp
          | exhausted => simp [runsOut_of_exhausted hnext]
          | crossed book => simp [not_runsOut_of_crossed hnext]

theorem runsOut_of_runFrom {stats : Stats} {sink : κ} {emitted : ℕ}
    (h : (runFrom count stats first sink).outcome = .error (.clockExhausted emitted)) :
    first.RunsOut count := by
  induction count generalizing first stats sink with
  | zero =>
      rw [runFrom] at h
      split at h <;> cases h
  | succ count ih =>
      rw [runFrom] at h
      split at h
      · rename_i record book second hnext
        split at h
        · exact (runsOut_succ_iff hnext).mpr (ih h)
        · cases h
      · rename_i second hnext
        exact runsOut_of_exhausted hnext
      · cases h

/-- A run into a sink that takes everything tells of the clock exactly if the clock runs
out. -/
theorem run_clockExhausted_iff {sound : κ → Prop} {sink : κ} (hreliable : Reliable sound)
    (hsound : sound sink) :
    (∃ emitted, (first.run count sink).outcome = .error (.clockExhausted emitted)) ↔
      first.RunsOut count := by
  constructor
  · rintro ⟨emitted, h⟩
    exact runsOut_of_runFrom h
  · rintro ⟨made, last, after, hmakes, hlength, hend⟩
    obtain ⟨written, hwrite, -⟩ := hreliable.writeAll hsound (made.map Prod.fst)
    obtain ⟨more, rfl⟩ := Nat.exists_eq_add_of_lt hlength
    refine ⟨made.length, ?_⟩
    rw [Nat.add_assoc, run_of_exhausted hmakes hwrite hend more]

end Any

section Open

variable {σ : Type} [DrawSource σ] {good : σ → Prop} {first : Emitter σ}

/-- An emitter whose spread keeps the book open makes a tick whenever there is room for
its time step. -/
theorem Walking.exists_next (hnumeric : Numeric good) (h : first.Walking good)
    (hopen : Walk.staysOpen first.walk.spread = true)
    (hroom : first.clock.toNat + (DrawSource.timeStep first.source).1.toNat < UInt64.size) :
    ∃ record book second, first.next = (.tick record book, second) ∧ second.Walking good ∧
      Walk.staysOpen second.walk.spread = true := by
  obtain ⟨hsecond, hspread, hbook⟩ := h.step hnumeric (step_next first)
  cases hnext : first.next with
  | mk emission second =>
      rw [hnext] at hsecond hspread hbook
      cases emission with
      | tick record book => exact ⟨record, book, second, rfl, hsecond, hspread ▸ hopen⟩
      | exhausted =>
          cases Step.of_next hnext with
          | exhausted htime hfull =>
              rw [htime] at hroom
              exact absurd hroom (Nat.not_lt.mpr hfull)
      | crossed book =>
          obtain ⟨walk, hgrid, hsame, hmet⟩ := hbook book rfl
          have hisOpen := hgrid.isOpen_book (hsame ▸ hopen)
          cases Step.of_next hnext with
          | crossed htime hroom hdrift hclassifier htrade hcrossed =>
              rw [hmet, hisOpen] at hcrossed
              cases hcrossed

/-- Such an emitter makes all ticks that it is asked for unless the clock runs out. -/
theorem Walking.makes_or_runsOut (hnumeric : Numeric good) (h : first.Walking good)
    (hopen : Walk.staysOpen first.walk.spread = true) (count : ℕ) :
    (∃ made last, Makes first made last ∧ made.length = count) ∨ first.RunsOut count := by
  induction count generalizing first with
  | zero => exact .inl ⟨[], first, .nil first, rfl⟩
  | succ count ih =>
      by_cases hroom : first.clock.toNat + (DrawSource.timeStep first.source).1.toNat < UInt64.size
      · obtain ⟨record, book, second, hnext, hsecond, hopen'⟩ := h.exists_next hnumeric hopen hroom
        rcases ih hsecond hopen' with ⟨made, last, hmakes, hlength⟩ | hend
        · exact .inl ⟨_, last, .cons hnext hmakes, congrArg Nat.succ hlength⟩
        · exact .inr ((runsOut_succ_iff hnext).mpr hend)
      · exact .inr (runsOut_of_exhausted (next_of_full (Nat.not_lt.mp hroom)))

end Open

section Steps

variable {σ : Type} [DrawSource σ] {good : σ → Prop}
variable {first last : Emitter (Paced σ)} {ticks : List (Record × Book)} {count : ℕ}

/-! ## The sum of the time steps -/

/-- Ticks that make records bring the clock forward by their time steps. -/
theorem Makes.clock_eq (h : Makes first ticks last) :
    last.clock.toNat = first.clock.toNat + Paced.span first.source.steps ticks.length := by
  induction h with
  | nil => rfl
  | @cons first _ _ _ _ _ hnext _ ih =>
      obtain ⟨hadmits, rfl, -⟩ := next_eq_tick_iff.mp hnext
      have hroom := hadmits.room
      rw [TickDraws.timeStep_ofSource] at hroom
      rw [ih, advance, TickDraws.timeStep_ofSource, toNat_clock_add hroom, List.length_cons,
        Paced.span_succ, Paced.steps_ofSource, Nat.add_assoc]
      rfl

/-- The clock runs out exactly if the steps of the ticks add up to more than it has room
for. -/
theorem Walking.runsOut_iff (hnumeric : Numeric good)
    (h : first.Walking fun paced => good paced.source)
    (hopen : Walk.staysOpen first.walk.spread = true) :
    first.RunsOut count ↔
      UInt64.size ≤ first.clock.toNat + Paced.span first.source.steps count := by
  induction count generalizing first with
  | zero =>
      have hroom : first.clock.toNat + 0 < UInt64.size := first.clock.toNat_lt
      exact iff_of_false not_runsOut_zero (Nat.not_le.mpr hroom)
  | succ count ih =>
      rw [Paced.span_succ]
      by_cases hroom : first.clock.toNat + (first.source.steps 0).toNat < UInt64.size
      · have hclock : (first.clock + first.source.steps 0).toNat =
            first.clock.toNat + (first.source.steps 0).toNat := toNat_clock_add hroom
        obtain ⟨record, book, second, hnext, hsecond, hopen'⟩ :=
          h.exists_next (Paced.numeric hnumeric) hopen hroom
        rw [runsOut_succ_iff hnext, ih hsecond hopen']
        obtain ⟨-, rfl, -⟩ := next_eq_tick_iff.mp hnext
        rw [advance, TickDraws.timeStep_ofSource, Paced.steps_ofSource, ← Nat.add_assoc, ← hclock]
        rfl
      · have hfull := Nat.not_lt.mp hroom
        exact iff_of_true (runsOut_of_exhausted (next_of_full hfull)) (by omega)

end Steps

end Emitter

end MarketTape
