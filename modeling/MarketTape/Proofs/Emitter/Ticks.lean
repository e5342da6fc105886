import MarketTape.Emitter.Basic

/-!
# The ticks of an emitter

`Emitter.Step` lists the four ways a tick can go, with the draws that each of them
makes in order; whatever holds of every tick is proved by its cases. The ticks
that an emitter makes in a row are `Emitter.Makes`, which `Emitter.take` and
`Emitter.nexts` follow as long as neither the clock nor the book ends them.
-/

namespace MarketTape

/-- A tick that made a record, as what came of it. -/
def Emission.ofTick (tick : Record × Book) : Emission := .tick tick.1 tick.2

namespace Emitter

variable {σ : Type} [DrawSource σ]

/-! ## One tick -/

/-- What a tick can come to and what it leaves behind, with the draws it makes. -/
inductive Step (emitter : Emitter σ) : Emission → Emitter σ → Prop
  | exhausted {timeStep : UInt64} {source : σ}
      (htime : DrawSource.timeStep emitter.source = (timeStep, source))
      (hfull : UInt64.size ≤ emitter.clock.toNat + timeStep.toNat) :
      Step emitter .exhausted { emitter with source }
  | quote {timeStep : UInt64} {drift classifier : Binary64} {bidSize askSize : UInt32}
      {timed drifted classified halfSized source : σ}
      (htime : DrawSource.timeStep emitter.source = (timeStep, timed))
      (hroom : emitter.clock.toNat + timeStep.toNat < UInt64.size)
      (hdrift : DrawSource.drift timed = (drift, drifted))
      (hclassifier : DrawSource.classifier drifted = (classifier, classified))
      (hquote : classifier < quoteShare)
      (hbid : DrawSource.bookSize classified = (bidSize, halfSized))
      (hask : DrawSource.bookSize halfSized = (askSize, source)) :
      Step emitter
        (.tick (.quote
          { timestamp := emitter.clock + timeStep, symbol := emitter.symbol
            bidPrice := (emitter.walk.step drift).book.bid, bidSize
            askPrice := (emitter.walk.step drift).book.ask, askSize })
          (emitter.walk.step drift).book)
        { symbol := emitter.symbol, clock := emitter.clock + timeStep
          walk := emitter.walk.step drift, source }
  | trade {timeStep : UInt64} {drift classifier part : Binary64} {size : UInt32}
      {timed drifted classified sided source : σ}
      (htime : DrawSource.timeStep emitter.source = (timeStep, timed))
      (hroom : emitter.clock.toNat + timeStep.toNat < UInt64.size)
      (hdrift : DrawSource.drift timed = (drift, drifted))
      (hclassifier : DrawSource.classifier drifted = (classifier, classified))
      (htrade : ¬ classifier < quoteShare)
      (hopen : (emitter.walk.step drift).book.isOpen = true)
      (hside : DrawSource.side classified = (part, sided))
      (hsize : DrawSource.tradeSize sided = (size, source)) :
      Step emitter
        (.tick (.trade
          { timestamp := emitter.clock + timeStep, symbol := emitter.symbol
            price := (emitter.walk.step drift).book.price (sideAt part), size })
          (emitter.walk.step drift).book)
        { symbol := emitter.symbol, clock := emitter.clock + timeStep
          walk := emitter.walk.step drift, source }
  | crossed {timeStep : UInt64} {drift classifier : Binary64} {timed drifted source : σ}
      (htime : DrawSource.timeStep emitter.source = (timeStep, timed))
      (hroom : emitter.clock.toNat + timeStep.toNat < UInt64.size)
      (hdrift : DrawSource.drift timed = (drift, drifted))
      (hclassifier : DrawSource.classifier drifted = (classifier, source))
      (htrade : ¬ classifier < quoteShare)
      (hcrossed : (emitter.walk.step drift).book.isOpen = false) :
      Step emitter (.crossed (emitter.walk.step drift).book)
        { symbol := emitter.symbol, clock := emitter.clock + timeStep
          walk := emitter.walk.step drift, source }

variable {first second last : Emitter σ} {ticks : List (Record × Book)} {emission : Emission}
variable {record : Record} {book : Book}

theorem step_next (emitter : Emitter σ) : emitter.Step emitter.next.1 emitter.next.2 := by
  rw [next]
  by_cases hroom : emitter.clock.toNat + (DrawSource.timeStep emitter.source).1.toNat < UInt64.size
  · simp only [hroom, if_true]
    split
    · exact .quote rfl hroom rfl rfl ‹_› rfl rfl
    · split
      · exact .trade rfl hroom rfl rfl ‹_› ‹_› rfl rfl
      · exact .crossed rfl hroom rfl rfl ‹_› (Bool.eq_false_iff.mpr ‹_›)
  · simp only [hroom, if_false]
    exact .exhausted rfl (Nat.not_lt.mp hroom)

theorem Step.of_next (h : first.next = (emission, second)) : first.Step emission second := by
  have hstep := step_next first
  rwa [h] at hstep

/-- The clock takes a time step in full if there is room for it. -/
theorem toNat_clock_add {clock timeStep : UInt64}
    (h : clock.toNat + timeStep.toNat < UInt64.size) :
    (clock + timeStep).toNat = clock.toNat + timeStep.toNat := by
  rw [UInt64.toNat_add]
  exact Nat.mod_eq_of_lt h

/-- A record is stamped with the time that its tick leaves on the clock, and no tick
sets the clock back. -/
theorem Step.timestamp_eq (h : first.Step (.tick record book) second) :
    record.timestamp = second.clock ∧ first.clock ≤ second.clock := by
  have hle {timeStep : UInt64} (hroom : first.clock.toNat + timeStep.toNat < UInt64.size) :
      first.clock ≤ first.clock + timeStep := by
    rw [UInt64.le_iff_toNat_le, toNat_clock_add hroom]
    exact Nat.le_add_right _ _
  cases h with
  | quote htime hroom => exact ⟨rfl, hle hroom⟩
  | trade htime hroom => exact ⟨rfl, hle hroom⟩

/-- A clock that ran out leaves all but the draws as it was. -/
theorem Step.exhausted_eq (h : first.Step .exhausted second) :
    second.symbol = first.symbol ∧ second.clock = first.clock ∧ second.walk = first.walk := by
  cases h
  exact ⟨rfl, rfl, rfl⟩

/-! ## Ticks in a row -/

/-- One emitter makes some ticks in a row, each a record and the book that it was
made from, and is left as another. -/
inductive Makes : Emitter σ → List (Record × Book) → Emitter σ → Prop
  | nil (emitter : Emitter σ) : Makes emitter [] emitter
  | cons {first second last : Emitter σ} {record : Record} {book : Book}
      {ticks : List (Record × Book)} (hnext : first.next = (.tick record book, second))
      (hrest : Makes second ticks last) : Makes first ((record, book) :: ticks) last

namespace Makes

/-- Taking more records than were made goes on where the ticks ended. -/
theorem take_add (h : Makes first ticks last) (count : Nat) :
    first.take (ticks.length + count) =
      (ticks.map Prod.fst ++ (last.take count).1, (last.take count).2) := by
  induction h with
  | nil => simp
  | cons hnext _ ih =>
      rw [List.length_cons, Nat.add_right_comm, take, hnext]
      simp only [ih, List.map_cons, List.cons_append]

theorem take_length (h : Makes first ticks last) :
    first.take ticks.length = (ticks.map Prod.fst, none, last) := by
  simpa [take] using h.take_add 0

variable {front back : List (Record × Book)}

/-- Ticks in a row can be told apart anywhere. -/
theorem append_iff :
    Makes first (front ++ back) last ↔
      ∃ middle, Makes first front middle ∧ Makes middle back last := by
  induction front generalizing first with
  | nil =>
      constructor
      · intro h
        exact ⟨first, .nil first, h⟩
      · rintro ⟨middle, hfront, hback⟩
        cases hfront
        exact hback
  | cons tick front ih =>
      constructor
      · rintro (_ | ⟨hnext, hrest⟩)
        obtain ⟨middle, hfront, hback⟩ := ih.mp hrest
        exact ⟨middle, .cons hnext hfront, hback⟩
      · rintro ⟨middle, _ | ⟨hnext, hfront⟩, hback⟩
        exact .cons hnext (ih.mpr ⟨middle, hfront, hback⟩)

theorem exists_split {a b : Nat} (h : Makes first ticks last) (hlength : ticks.length = a + b) :
    ∃ front back middle, ticks = front ++ back ∧ front.length = a ∧ back.length = b ∧
      Makes first front middle ∧ Makes middle back last := by
  rw [← List.take_append_drop a ticks, append_iff] at h
  obtain ⟨middle, hfront, hback⟩ := h
  refine ⟨ticks.take a, ticks.drop a, middle, (List.take_append_drop a ticks).symm, ?_, ?_, hfront,
    hback⟩
  · rw [List.length_take]
    omega
  · rw [List.length_drop]
    omega

end Makes

/-- As long as nothing ends the ticks, as many are made as are asked for. -/
theorem exists_makes {count : Nat} (h : (first.take count).2.1 = none) :
    ∃ ticks last, Makes first ticks last ∧ ticks.length = count := by
  induction count generalizing first with
  | zero => exact ⟨[], first, .nil first, rfl⟩
  | succ count ih =>
      rw [take] at h
      split at h
      · rename_i record book second hnext
        obtain ⟨ticks, last, hmakes, hlength⟩ := ih h
        exact ⟨(record, book) :: ticks, last, .cons hnext hmakes, congrArg Nat.succ hlength⟩
      · cases h

/-- The records of ticks that nothing ends are taken, and none others. -/
theorem take_eq_iff {count : Nat} {records : List Record} :
    first.take count = (records, none, last) ↔
      ∃ ticks, Makes first ticks last ∧ ticks.length = count ∧ ticks.map Prod.fst = records := by
  constructor
  · intro h
    obtain ⟨ticks, after, hmakes, rfl⟩ := exists_makes (congrArg (fun taken => taken.2.1) h)
    rw [hmakes.take_length] at h
    cases h
    exact ⟨ticks, hmakes, rfl, rfl⟩
  · rintro ⟨ticks, hmakes, rfl, rfl⟩
    exact hmakes.take_length

/-- Ticks that make records only are what is made in a row. -/
theorem nexts_eq_iff {count : Nat} :
    first.nexts count = (ticks.map Emission.ofTick, last) ↔
      Makes first ticks last ∧ ticks.length = count := by
  constructor
  · intro h
    induction count generalizing first ticks with
    | zero =>
        obtain ⟨hnil, rfl⟩ := Prod.mk.inj h
        obtain rfl := List.map_eq_nil_iff.mp hnil.symm
        exact ⟨.nil first, rfl⟩
    | succ count ih =>
        cases ticks with
        | nil =>
            rw [nexts] at h
            split at h <;> cases h
        | cons tick ticks =>
            rw [nexts] at h
            split at h
            · cases h
            · rename_i emission after hcrossed hnext
              obtain ⟨hcons, hlast⟩ := Prod.mk.inj h
              obtain ⟨rfl, hrest⟩ := List.cons.inj hcons
              obtain ⟨hmakes, hlength⟩ := ih (Prod.ext hrest hlast)
              exact ⟨.cons hnext hmakes, congrArg Nat.succ hlength⟩
  · rintro ⟨hmakes, rfl⟩
    induction hmakes with
    | nil => rfl
    | cons hnext _ ih =>
        rw [List.length_cons, nexts, hnext]
        simp only [ih]
        rfl

/-- One record is taken by one tick. -/
theorem take_one (h : (first.take 1).2.1 = none) :
    ∃ record book, first.next = (.tick record book, (first.take 1).2.2) ∧
      (first.take 1).1 = [record] := by
  rw [take] at h ⊢
  split at h
  · rename_i record book after hnext
    exact ⟨record, book, by rw [hnext, take], rfl⟩
  · cases h

/-- What ends one more tick is what comes of it. -/
theorem take_one_ending (h : (first.take 1).2.1 = some emission) :
    first.next = (emission, (first.take 1).2.2) := by
  rw [take] at h ⊢
  split at h
  · cases h
  · rename_i other after hother hnext
    simp only [Option.some.injEq] at h
    rw [← h, hnext]

/-- Nothing but the clock or a crossed book ends the ticks. -/
theorem take_ending {count : Nat} (h : (first.take count).2.1 = some emission) :
    emission = .exhausted ∨ ∃ book, emission = .crossed book := by
  induction count generalizing first with
  | zero => cases h
  | succ count ih =>
      rw [take] at h
      split at h
      · exact ih h
      · rename_i other after hother hnext
        obtain rfl := Option.some.inj h
        cases other with
        | tick record book => exact (hother record book rfl).elim
        | exhausted => exact .inl rfl
        | crossed book => exact .inr ⟨book, rfl⟩

/-- Behind the end of the ticks nothing more is taken. -/
theorem take_of_ending {count : Nat} (h : (first.take count).2.1 = some emission) (more : Nat) :
    first.take (count + more) = first.take count := by
  induction count generalizing first with
  | zero => cases h
  | succ count ih =>
      rw [Nat.add_right_comm, take, take]
      rw [take] at h
      split at h
      · rename_i record book after hnext
        rw [ih h]
      · rfl

/-- Taking more records takes the same ones first. -/
theorem take_front (first : Emitter σ) (count more : Nat) :
    (first.take count).1 <+: (first.take (count + more)).1 := by
  induction count generalizing first with
  | zero => exact List.nil_prefix
  | succ count ih =>
      rw [Nat.add_right_comm, take, take]
      split
      · rename_i record book after hnext
        exact List.cons_prefix_cons.mpr ⟨rfl, ih after⟩
      · exact List.nil_prefix

end Emitter

end MarketTape
