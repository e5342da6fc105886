import MarketTape.Generation
import MarketTape.Proofs.Settings.Check
import MarketTape.Proofs.World.Disk
import MarketTape.Proofs.World.FileTree

/-!
# What a failed tape leaves behind

However the making of a tape fails, the disk is left with the files that it had. All
that may be new are directories on the way to the tape, and nothing lies where the
draft was written. Settings that cannot be used leave the disk untouched.
-/

namespace MarketTape

/-- Whether an error comes behind the point from which on there may be a draft. -/
def GenerationError.isBehindDraft : GenerationError → Bool
  | .settings _ => false
  | .file .makeDirectory _ => false
  | _ => true

namespace Generation

open FileTree

variable {settings : Settings} {ticks : Nat} {seed : UInt64} {path : String} {disk after : Disk}
variable {error : GenerationError}

/-- Nothing is left of a draft. -/
theorem changedAt_discard (path : String) (disk : Disk) :
    ChangedAt path disk.tree (discard (m := OnDisk) path disk).2.tree ∧
      (discard (m := OnDisk) path disk).2.tree.read? path = none := by
  simp only [discard, Disk.bind_apply, Disk.remove_apply]
  cases hremove : disk.tree.remove path with
  | ok tree =>
      obtain ⟨hchanged, place, hplace, hnone⟩ := changedAt_remove hremove
      exact ⟨hchanged, read?_of_find? hplace hnone⟩
  | error error =>
      have hnone := read?_of_remove hremove
      cases error with
      | absent => exact ⟨.refl path disk.tree, hnone⟩
      | refused => exact ⟨.refl path disk.tree, hnone⟩

theorem isBehindDraft_of_contents {room : Option Nat}
    (h : contents settings ticks seed room = .error error) : error.isBehindDraft = true := by
  rw [contents] at h
  split at h
  · cases h
    rfl
  · split at h
    · cases h
    · cases h
      rfl

/-- To write a draft changes the tree at its path only, whether or not it succeeds. A
success leaves the whole contents there. -/
theorem changedAt_write {result : Except GenerationError Stats}
    (h : write (m := OnDisk) settings ticks seed path disk = (result, after)) :
    ChangedAt path disk.tree after.tree ∧
      (∀ error, result = .error error → error.isBehindDraft = true) ∧
      ∀ stats, result = .ok stats → ∃ bytes,
        contents settings ticks seed disk.room = .ok (stats, bytes) ∧
          after.tree.read? path = some bytes := by
  simp only [write, Disk.bind_apply, Disk.create_apply, Disk.ite_apply] at h
  cases hcreate : disk.tree.write? path .empty with
  | none =>
      simp only [hcreate, Bool.false_eq_true, if_false, Disk.pure_apply] at h
      obtain ⟨rfl, rfl⟩ := h
      exact ⟨.refl path disk.tree, by rintro _ ⟨⟩; rfl, by rintro _ ⟨⟩⟩
  | some tree =>
      have hcreated := changedAt_write? hcreate
      simp only [hcreate, if_true, Disk.report_apply, Disk.room_apply] at h
      cases hcontents : contents settings ticks seed disk.room with
      | error failure =>
          simp only [hcontents, Disk.pure_apply] at h
          obtain ⟨rfl, rfl⟩ := h
          exact ⟨hcreated, by rintro _ ⟨⟩; exact isBehindDraft_of_contents hcontents,
            by rintro _ ⟨⟩⟩
      | ok made =>
          simp only [hcontents, Disk.bind_apply, Disk.fill_apply] at h
          cases hfill : tree.write? path made.2 with
          | none =>
              simp only [hfill, Disk.pure_apply] at h
              obtain ⟨rfl, rfl⟩ := h
              exact ⟨hcreated, by rintro _ ⟨⟩; rfl, by rintro _ ⟨⟩⟩
          | some filled =>
              have hfilled := hcreated.trans (changedAt_write? hfill)
              simp only [hfill, Disk.bind_apply, Disk.sync_apply, Disk.ite_apply,
                Disk.pure_apply] at h
              split at h <;> obtain ⟨rfl, rfl⟩ := h
              · refine ⟨hfilled, by rintro _ ⟨⟩, ?_⟩
                rintro _ ⟨⟩
                exact ⟨made.2, rfl, read?_of_write? hfill⟩
              · exact ⟨hfilled, by rintro _ ⟨⟩; rfl, by rintro _ ⟨⟩⟩

/-- Behind the directories that a failed tape asked for, only its draft was touched,
and that is gone. -/
theorem changedAt_makeFile
    (h : makeFile (m := OnDisk) settings ticks seed disk = (.error error, after)) :
    ChangedAt (draftPath settings.outputPath)
        (disk.tree.makeDirectories settings.outputDir).2 after.tree ∧
      (∀ cause, error ≠ .settings cause) ∧
      (error.isBehindDraft = true → after.tree.read? (draftPath settings.outputPath) = none) := by
  simp only [makeFile, Disk.bind_apply, Disk.report_apply] at h
  rw [Disk.makeDirectories_apply, Disk.ite_apply] at h
  split at h
  · rw [Disk.bind_apply] at h
    generalize hwrite : write (m := OnDisk) settings ticks seed (draftPath settings.outputPath) _ =
      written at h
    obtain ⟨result, drafted⟩ := written
    obtain ⟨hchanged, hbehind, -⟩ := changedAt_write hwrite
    obtain ⟨hdiscard, hgone⟩ := changedAt_discard (draftPath settings.outputPath) drafted
    cases result with
    | error failure =>
        simp only [Disk.bind_apply, Disk.pure_apply] at h
        obtain ⟨rfl, rfl⟩ := h
        refine ⟨hchanged.trans hdiscard, ?_, fun _ => hgone⟩
        rintro cause rfl
        cases hbehind _ rfl
    | ok stats =>
        simp only [Disk.bind_apply] at h
        rw [Disk.rename_apply] at h
        cases hrename :
            drafted.tree.rename? (draftPath settings.outputPath) settings.outputPath with
        | some tree =>
            simp only [hrename, if_true, Disk.bind_apply, Disk.pure_apply] at h
            cases h
        | none =>
            simp only [hrename, Bool.false_eq_true, if_false, Disk.bind_apply, Disk.pure_apply] at h
            obtain ⟨rfl, rfl⟩ := h
            exact ⟨hchanged.trans hdiscard, by rintro cause ⟨⟩, fun _ => hgone⟩
  · obtain ⟨rfl, rfl⟩ := h
    exact ⟨.refl _ _, by rintro cause ⟨⟩, by rintro ⟨⟩⟩

/-- To choose a seed changes nothing on a disk. -/
theorem seedOf_apply (settings : Settings) (disk : Disk) :
    seedOf (m := OnDisk) settings disk = (settings.seed.getD disk.nextSeed, disk) := by
  rw [seedOf]
  cases settings.seed with
  | some seed => rfl
  | none => exact Disk.freshSeed_apply disk

/-- What a failed attempt at a tape leaves of a disk. -/
structure Unspoiled (settings : Settings) (error : GenerationError) (before after : Disk) :
    Prop where
  /-- Every place but that of the draft holds what it held, unless it is a directory
  that was made for the tape. -/
  kept : ∀ place, after.tree.resolve (draftPath settings.outputPath) ≠ .ok place →
    Kept settings.outputDir before.tree after.tree place
  /-- So does the place of the tape, which is never that of the draft. -/
  destination : ∀ place, after.tree.resolve settings.outputPath = .ok place →
    Kept settings.outputDir before.tree after.tree place
  /-- Every path leads where it led. -/
  leads : ∀ path place, before.tree.resolve path = .ok place →
    after.tree.resolve path = .ok place
  /-- What is read there is what was read before, -/
  contents : ∀ path place, before.tree.resolve path = .ok place →
    after.tree.resolve (draftPath settings.outputPath) ≠ .ok place →
      after.tree.read? path = before.tree.read? path
  /-- in particular the tape that was there, or that there was none. -/
  previous : ∀ place, before.tree.resolve settings.outputPath = .ok place →
    after.tree.read? settings.outputPath = before.tree.read? settings.outputPath
  untouched : ∀ cause, error = .settings cause → after = before
  /-- No file is left where the draft was. -/
  gone : error.isBehindDraft = true → after.tree.read? (draftPath settings.outputPath) = none

theorem unspoiled_of_settings (settings : Settings) (cause : SettingsError) (disk : Disk) :
    Unspoiled settings (.settings cause) disk disk where
  kept _ _ := .inl rfl
  destination _ _ := .inl rfl
  leads _ _ h := h
  contents _ _ _ _ := rfl
  previous _ _ := rfl
  untouched _ _ := rfl
  gone h := by cases h

theorem unspoiled_of_makeFile
    (h : makeFile (m := OnDisk) settings ticks seed disk = (.error error, after)) :
    Unspoiled settings error disk after := by
  obtain ⟨hchanged, hcause, hgone⟩ := changedAt_makeFile h
  have hgrown := grown_makeDirectories disk.tree settings.outputDir
  have hkeeps := hgrown.keeps.trans hchanged.keeps
  have hdestination (place : Location)
      (hplace : after.tree.resolve settings.outputPath = .ok place) :
      Kept settings.outputDir disk.tree after.tree place := by
    apply hchanged.kept hgrown
    intro hdraft
    exact resolve_append_ne (by decide) (by decide) hplace hdraft rfl
  constructor
  case kept => exact fun _ => hchanged.kept hgrown
  case destination => exact hdestination
  case leads => exact fun _ _ => hkeeps.resolve
  case contents =>
    intro path place hplace hdraft
    exact (hchanged.kept hgrown hdraft).read?_eq hkeeps hplace
  case previous =>
    intro place hplace
    exact (hdestination place (hkeeps.resolve hplace)).read?_eq hkeeps hplace
  case untouched => exact fun cause hsettings => absurd hsettings (hcause cause)
  case gone => exact hgone

/-- However the making of a tape fails, the tape that was at its place is there as
before, and so is everything else on the disk. -/
theorem run_unspoiled
    (h : run (m := OnDisk) settings disk = (.error error, after)) :
    Unspoiled settings error disk after := by
  rw [run] at h
  cases hticks : settings.ticks with
  | error cause =>
      simp only [hticks, Disk.pure_apply] at h
      obtain ⟨rfl, rfl⟩ := h
      exact unspoiled_of_settings settings cause disk
  | ok ticks =>
      simp only [hticks, Disk.bind_apply, seedOf_apply] at h
      exact unspoiled_of_makeFile h

/-- A tape that does not find room is given up for that reason. -/
theorem run_of_contents (hticks : settings.ticks = .ok ticks) (hseed : settings.seed = some seed)
    (hmade : (disk.tree.makeDirectories settings.outputDir).1 = true) {tree : FileTree}
    (hcreate : (disk.tree.makeDirectories settings.outputDir).2.write?
      (draftPath settings.outputPath) .empty = some tree)
    (hcontents : contents settings ticks seed disk.room = .error error) :
    (run (m := OnDisk) settings disk).1 = .error error := by
  simp only [run, hticks, Disk.bind_apply, seedOf_apply, hseed, Option.getD_some, makeFile,
    Disk.report_apply]
  rw [Disk.makeDirectories_apply]
  simp only [hmade, if_true, Disk.bind_apply, write]
  rw [Disk.create_apply]
  simp only [hcreate, if_true, Disk.bind_apply, Disk.report_apply, Disk.room_apply, hcontents,
    Disk.pure_apply]

/-- Settings for a tape of one tick. -/
def oneTick : Settings := { Settings.standard with tickCount := 1, seed := some 7 }

theorem usable_oneTick : oneTick.Usable :=
  { Settings.usable_standard with tickCount := by decide, clock := by decide }

/-- A disk with a tape, and no room for another. -/
def fullDisk : Disk where
  tree :=
    { FileTree.empty with
      nodes := [(["data"], .directory),
        (["data", "synthetic_ticks.csv"], .file "TYPE\n".toByteArray)] }
  room := some 0
  syncs := true
  nextSeed := 0
  journal := #[]

theorem run_unspoiled_fullDisk :
    ∃ error after, run (m := OnDisk) oneTick fullDisk = (.error error, after) ∧
      error.isBehindDraft = true ∧ Unspoiled oneTick error fullDisk after := by
  have hticks : oneTick.ticks = .ok 1 :=
    Settings.ticks_eq_ok_iff.mpr ⟨usable_oneTick, by decide⟩
  have hfails : (contents oneTick 1 7 (some 0)).isOk = false := by decide +kernel
  cases hcontents : contents oneTick 1 7 (some 0) with
  | ok made =>
      rw [hcontents] at hfails
      cases hfails
  | error error =>
      obtain ⟨tree, hcreate⟩ := Option.isSome_iff_exists.mp
        (show ((fullDisk.tree.makeDirectories oneTick.outputDir).2.write?
          (draftPath oneTick.outputPath) .empty).isSome = true by decide +kernel)
      have hrun : (run (m := OnDisk) oneTick fullDisk).1 = .error error :=
        run_of_contents hticks rfl (by decide +kernel) hcreate hcontents
      exact ⟨error, _, Prod.ext hrun rfl, isBehindDraft_of_contents hcontents,
        run_unspoiled (Prod.ext hrun rfl)⟩

end Generation

end MarketTape
