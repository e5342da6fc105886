import MarketTape.Proofs.Emitter.Clock

/-!
# Out of time

An emitter whose clock ran out takes no note of it: the next tick draws a time step of its
own. As long as the time steps are longer than what the clock has left, nothing comes of
them and nothing changes; a shorter one goes on with the tape. Less than the longest time
step is left by then, and every record takes at least the shortest one out of that, so that
only a few more can come.
-/

namespace MarketTape.Emitter

section Room

variable {σ : Type} {emitter : Emitter σ}

/-- The longest time step that the clock has room for. -/
def room (emitter : Emitter σ) : ℕ := UInt64.size - 1 - emitter.clock.toNat

theorem room_lt_iff {timeStep : UInt64} :
    emitter.room < timeStep.toNat ↔ UInt64.size ≤ emitter.clock.toNat + timeStep.toNat := by
  have hclock : emitter.clock.toNat < UInt64.size := emitter.clock.toNat_lt
  rw [room]
  omega

end Room

variable {σ : Type} [DrawSource σ] {good : σ → Prop} {emitter first second : Emitter σ}
variable {emission : Emission} {count : ℕ}

/-- Time steps in a row, with no other draw between them. -/
def timeSteps : ℕ → σ → List UInt64 × σ
  | 0, source => ([], source)
  | count + 1, source =>
    let (timeStep, source) := DrawSource.timeStep source
    let (more, last) := timeSteps count source
    (timeStep :: more, last)

/-- The emitter behind time steps that led nowhere. -/
def waited (emitter : Emitter σ) (count : ℕ) : Emitter σ :=
  { emitter with source := (timeSteps count emitter.source).2 }

/-! ## What is left on the clock -/

/-- The clock runs out at a time step that is longer than what it has left. -/
theorem next_eq_exhausted_iff :
    emitter.next.1 = .exhausted ↔
      emitter.room < (DrawSource.timeStep emitter.source).1.toNat := by
  constructor
  · intro h
    cases hnext : emitter.next with
    | mk emission after =>
        rw [hnext] at h
        obtain rfl : emission = .exhausted := h
        cases Step.of_next hnext with
        | exhausted htime hfull =>
            rw [htime]
            exact room_lt_iff.mpr hfull
  · intro h
    rw [next_of_full (room_lt_iff.mp h)]

/-- A tick that the clock has room for takes at least the shortest time step out of it. -/
theorem Step.room_le (htimed : Timed good) (hgood : good first.source)
    (h : first.Step emission second) :
    good second.source ∧ (emission = .exhausted ∧ second.room = first.room ∨
      emission ≠ .exhausted ∧ second.room + Generator.minTimeStep ≤ first.room) := by
  have hmoves {timeStep : UInt64} {source : σ}
      (htime : DrawSource.timeStep first.source = (timeStep, source))
      (hroom : first.clock.toNat + timeStep.toNat < UInt64.size) :
      UInt64.size - 1 - (first.clock + timeStep).toNat + Generator.minTimeStep ≤ first.room := by
    have hlow : Generator.minTimeStep ≤ timeStep.toNat := (htimed.timeStep hgood htime).1.1
    rw [toNat_clock_add hroom, room]
    omega
  have hdrawn {timeStep : UInt64} {drift classifier : Binary64} {timed drifted classified : σ}
      (htime : DrawSource.timeStep first.source = (timeStep, timed))
      (hdrift : DrawSource.drift timed = (drift, drifted))
      (hclassifier : DrawSource.classifier drifted = (classifier, classified)) :
      good classified :=
    htimed.classifier (htimed.drift (htimed.timeStep hgood htime).2 hdrift) hclassifier
  cases h with
  | exhausted htime hfull => exact ⟨(htimed.timeStep hgood htime).2, .inl ⟨rfl, rfl⟩⟩
  | quote htime hroom hdrift hclassifier hquote hbid hask =>
      have hsource := htimed.bookSize (htimed.bookSize (hdrawn htime hdrift hclassifier) hbid) hask
      exact ⟨hsource, .inr ⟨nofun, hmoves htime hroom⟩⟩
  | trade htime hroom hdrift hclassifier htrade hopen hside hsize =>
      have hsource := htimed.tradeSize (htimed.side (hdrawn htime hdrift hclassifier) hside) hsize
      exact ⟨hsource, .inr ⟨nofun, hmoves htime hroom⟩⟩
  | crossed htime hroom hdrift hclassifier htrade hcrossed =>
      exact ⟨hdrawn htime hdrift hclassifier, .inr ⟨nofun, hmoves htime hroom⟩⟩

/-- The ticks that the clock has room for take their time out of what it has left. -/
theorem countP_nexts_le (htimed : Timed good) (hgood : good emitter.source) (count : ℕ) :
    (emitter.nexts count).1.countP (· != .exhausted) * Generator.minTimeStep ≤ emitter.room := by
  induction count generalizing emitter with
  | zero => exact (Nat.zero_mul _).trans_le (Nat.zero_le _)
  | succ count ih =>
      obtain ⟨hgood', hroom⟩ := (step_next emitter).room_le htimed hgood
      rw [nexts]
      cases hnext : emitter.next with
      | mk emission after =>
          rw [hnext] at hgood' hroom
          have hrest := ih hgood'
          obtain ⟨rfl, hsame⟩ | ⟨hne, hless⟩ := hroom
          · simpa [hsame] using hrest
          · cases emission with
            | exhausted => exact absurd rfl hne
            | tick record book =>
                have hadd := Nat.add_le_add_right hrest Generator.minTimeStep
                simpa [Nat.succ_mul] using hadd.trans hless
            | crossed book => simpa using (Nat.le_add_left _ _).trans hless

/-! ## Ticks that led nowhere -/

/-- Time steps that are all too long leave everything but the draws as it was. -/
theorem nexts_of_full
    (h : ∀ timeStep ∈ (timeSteps count emitter.source).1, emitter.room < timeStep.toNat) :
    emitter.nexts count = (List.replicate count .exhausted, emitter.waited count) := by
  induction count generalizing emitter with
  | zero => rfl
  | succ count ih =>
      obtain ⟨hfirst, hrest⟩ := List.forall_mem_cons.mp h
      have hbehind := @ih { emitter with source := (DrawSource.timeStep emitter.source).2 } hrest
      rw [nexts, next_of_full (room_lt_iff.mp hfirst)]
      simp only [hbehind]
      rfl

/-- As many ticks lead nowhere as there are time steps in a row that are too long. -/
theorem nexts_eq_replicate_iff :
    (emitter.nexts count).1 = List.replicate count .exhausted ↔
      ∀ timeStep ∈ (timeSteps count emitter.source).1, emitter.room < timeStep.toNat := by
  constructor
  · intro h
    induction count generalizing emitter with
    | zero => nofun
    | succ count ih =>
        rw [nexts] at h
        split at h
        · cases h
        · rename_i emission after hcrossed hnext
          obtain ⟨rfl, hrest⟩ := List.cons.inj h
          have hfirst := next_eq_exhausted_iff.mp (congrArg Prod.fst hnext)
          rw [next_of_full (room_lt_iff.mp hfirst)] at hnext
          cases hnext
          exact List.forall_mem_cons.mpr ⟨hfirst, ih hrest⟩
  · intro h
    rw [nexts_of_full h]

/-- Records asked for in a row end at once exactly if the first time step is too long. -/
theorem take_eq_exhausted_iff :
    emitter.take (count + 1) = ([], some .exhausted, emitter.waited 1) ↔
      emitter.room < (DrawSource.timeStep emitter.source).1.toNat := by
  rw [take]
  constructor
  · intro h
    apply next_eq_exhausted_iff.mp
    split at h
    · cases h
    · rename_i emission after hother hnext
      obtain ⟨-, hending⟩ := Prod.mk.inj h
      rw [hnext, Option.some.inj (Prod.mk.inj hending).1]
  · intro h
    rw [next_of_full (room_lt_iff.mp h)]
    rfl

theorem timeSteps_inRange (htimed : Timed good) {source : σ} (hgood : good source) :
    ∀ timeStep ∈ (timeSteps count source).1, TimeStepInRange timeStep := by
  induction count generalizing source with
  | zero => nofun
  | succ count ih =>
      obtain ⟨hfirst, hrest⟩ := htimed.timeStep hgood rfl
      exact List.forall_mem_cons.mpr ⟨hfirst, ih hrest⟩

/-- An emitter at a given time, whose first time step is the longest and whose second one is
the shortest. -/
def longThenShort (clock : UInt64) : Emitter Script where
  symbol := standardSymbol
  clock
  walk := .standard
  source := { Settings.turns with timeSteps := .ofList [500000000, 10000000] }

theorem inRange_longThenShort (clock : UInt64) : (longThenShort clock).source.InRange := by
  refine { Settings.inRange_turns with timeSteps := Cycle.all_ofList (by simp) ?_ }
  exact List.forall_mem_cons.mpr ⟨by decide, List.forall_mem_singleton.mpr (by decide)⟩

end MarketTape.Emitter
