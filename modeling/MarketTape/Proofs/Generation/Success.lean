import MarketTape.Proofs.Generation.Failure
import MarketTape.Proofs.Generation.InMemory
import MarketTape.Proofs.Tape.Rewrite

/-!
# What a tape that was made leaves behind

A tape that is made as a file is the tape that the same settings make in memory, byte
for byte, however much room there was and whatever lay on the disk before. The draft
is gone, and nothing else on the disk has changed but for directories on the way to
the tape.
-/

namespace MarketTape

/-- Settings that ask for the same tape, wherever it is to go. -/
structure Settings.SameTape (settings other : Settings) : Prop where
  tickCount : other.tickCount = settings.tickCount
  symbol : other.symbol = settings.symbol
  seed : other.seed = settings.seed
  start : other.start = settings.start
  initialMid : other.initialMid = settings.initialMid
  spread : other.spread = settings.spread

theorem Settings.SameTape.emitter_eq {settings other : Settings} (h : settings.SameTape other)
    (seed : UInt64) : other.emitter seed = settings.emitter seed := by
  rw [Settings.emitter, Settings.emitter, h.symbol, h.start, h.initialMid, h.spread]

namespace Generation

open Emitter FileTree

variable {settings other : Settings} {ticks : Nat} {seed : UInt64} {disk after : Disk}
variable {stats : Stats} {records : List Record} {bytes : ByteArray} {report : Report}

/-! ## The contents -/

/-- What is ready for a file is what is made in memory, whatever room the file has. -/
theorem inMemory_of_contents {room : Option Nat} (hticks : settings.ticks = .ok ticks)
    (h : contents settings ticks seed room = .ok (stats, bytes)) :
    ∃ records, InMemory settings seed stats records bytes ∧
      bytes.data.toList = TableSink.tapeBytes records ∧ records.length = ticks ∧
        stats.total = ticks := by
  rw [contents] at h
  cases hrun : (settings.emitter seed).run ticks (TableSink.start room) with
  | mk outcome last final =>
      rw [hrun] at h
      cases outcome with
      | error error => cases h
      | ok found =>
          simp only at h
          split at h
          · rename_i hclose
            cases h
            obtain ⟨made, written, hmakes, rfl, hwrite, hflush, rfl⟩ := run_eq_ok_iff.mp hrun
            have hbytes := TableSink.delivered_of_close hwrite hflush hclose
            have hmemory := inMemory_of_makes hticks hmakes
            rw [← hbytes] at hmemory
            exact ⟨made.map Prod.fst, hmemory, hbytes, List.length_map _, by simp⟩
          · cases h

/-- A file without a limit has room for every tape. -/
theorem exists_contents (husable : settings.Usable) (seed : UInt64) :
    ∃ made, contents settings settings.tickCount.toInt.toNat seed none = .ok made := by
  obtain ⟨made, last, hmakes, hlength⟩ := exists_makes_of_usable husable seed
  obtain ⟨sink, bytes, hrun, hclose, -⟩ := hmakes.exists_table
  refine ⟨(Stats.empty.addAll made, bytes), ?_⟩
  rw [contents, ← hlength, hrun]
  simp only [hclose]

/-- The same tape is made in memory of settings that ask for it. -/
theorem InMemory.eq_of_sameTape {stats' : Stats} {records' : List Record} {bytes' : ByteArray}
    (h : InMemory settings seed stats records bytes)
    (h' : InMemory other seed stats' records' bytes') (hticks : settings.ticks = .ok ticks)
    (hticks' : other.ticks = .ok ticks) (hsame : settings.SameTape other) :
    stats' = stats ∧ bytes' = bytes := by
  obtain ⟨sink, hsink, hclose⟩ := h.bytes
  obtain ⟨sink', hsink', hclose'⟩ := h'.bytes
  rw [intoSink, hticks', hsame.emitter_eq] at hsink'
  rw [intoSink, hticks] at hsink
  obtain ⟨hstats, rfl⟩ := Prod.mk.inj (hsink'.symm.trans hsink)
  exact ⟨Except.ok.inj hstats, (Prod.mk.inj (hclose'.symm.trans hclose)).2⟩

/-! ## The disk -/

/-- To report a tape changes no file. -/
theorem conclude_apply (path : String) (seed : UInt64) (stats : Stats) (disk : Disk) :
    (conclude (m := OnDisk) path seed stats disk).1 =
        { path, records := stats.total, seed, stats } ∧
      (conclude (m := OnDisk) path seed stats disk).2.tree = disk.tree := by
  rw [conclude]
  cases stats.summary with
  | ok summary => exact ⟨rfl, rfl⟩
  | error error => exact ⟨rfl, rfl⟩

/-- A tape that was made was written as a draft, and the draft moved to its place. -/
theorem makeFile_ok
    (h : makeFile (m := OnDisk) settings ticks seed disk = (.ok report, after)) :
    ∃ stats bytes drafted, contents settings ticks seed disk.room = .ok (stats, bytes) ∧
      report = { path := settings.outputPath, records := stats.total, seed, stats } ∧
      ChangedAt (draftPath settings.outputPath)
        (disk.tree.makeDirectories settings.outputDir).2 drafted ∧
      drafted.read? (draftPath settings.outputPath) = some bytes ∧
      drafted.rename? (draftPath settings.outputPath) settings.outputPath = some after.tree := by
  simp only [makeFile, Disk.bind_apply, Disk.report_apply] at h
  rw [Disk.makeDirectories_apply, Disk.ite_apply] at h
  split at h
  · rw [Disk.bind_apply] at h
    generalize hwrite : write (m := OnDisk) settings ticks seed (draftPath settings.outputPath) _ =
      written at h
    obtain ⟨result, drafted⟩ := written
    obtain ⟨hchanged, -, hdraft⟩ := changedAt_write hwrite
    cases result with
    | error failure =>
        simp only [Disk.bind_apply, Disk.pure_apply] at h
        cases h
    | ok stats =>
        obtain ⟨bytes, hcontents, hread⟩ := hdraft stats rfl
        simp only [Disk.bind_apply] at h
        rw [Disk.rename_apply] at h
        cases hrename :
            drafted.tree.rename? (draftPath settings.outputPath) settings.outputPath with
        | none =>
            simp only [hrename, Bool.false_eq_true, if_false, Disk.bind_apply, Disk.pure_apply] at h
            cases h
        | some tree =>
            simp only [hrename, if_true, Disk.bind_apply, Disk.pure_apply] at h
            obtain ⟨hreport, htree⟩ :=
              conclude_apply settings.outputPath seed stats { drafted with tree }
            obtain ⟨hok, rfl⟩ := Prod.mk.inj h
            refine ⟨stats, bytes, drafted.tree, hcontents, ?_, hchanged, hread, ?_⟩
            · rw [← Except.ok.inj hok, hreport]
            · rw [htree]
              exact hrename
  · cases h

/-- What comes of a tape that was made as a file. -/
structure Made (settings : Settings) (seed : UInt64) (report : Report) (before after : Disk) :
    Prop where
  ofSeed : report.seed = seed
  count : (report.records : ℤ) = settings.tickCount.toInt
  /-- The file holds what is made in memory, with the same statistics, and as many
  records are read back from it. -/
  tape : ∃ records bytes again, InMemory settings seed report.stats records bytes ∧
    after.tree.read? settings.outputPath = some bytes ∧
    Tape.records bytes = .ok again ∧ again.length = report.records
  /-- Every place but those of the tape and its draft holds what it held, unless it is a
  directory that was made for the tape. -/
  kept : ∀ place, after.tree.resolve settings.outputPath ≠ .ok place →
    after.tree.resolve (draftPath settings.outputPath) ≠ .ok place →
      Kept settings.outputDir before.tree after.tree place
  /-- Every path leads where it led. -/
  leads : ∀ path place, before.tree.resolve path = .ok place →
    after.tree.resolve path = .ok place
  /-- Nothing is left where the draft was. -/
  gone : ∃ place, after.tree.resolve (draftPath settings.outputPath) = .ok place ∧
    after.tree.find? place = none

theorem made_of_makeFile (hticks : settings.ticks = .ok ticks)
    (h : makeFile (m := OnDisk) settings ticks seed disk = (.ok report, after)) :
    Made settings seed report disk after := by
  obtain ⟨stats, bytes, drafted, hcontents, rfl, hdrafted, hdraft, hrename⟩ := makeFile_ok h
  obtain ⟨records, hmemory, hbytes, hlength, htotal⟩ := inMemory_of_contents hticks hcontents
  obtain ⟨_, removed, hread, hremove, hwrite⟩ := rename?_eq_some_iff.mp hrename
  obtain rfl := Option.some.inj (hread.symm.trans hdraft)
  obtain ⟨hremoved, gap, hgap, hnone⟩ := changedAt_remove hremove
  have hwritten := changedAt_write? hwrite
  have hgrown := grown_makeDirectories disk.tree settings.outputDir
  have hgap' := hwritten.resolve_iff.mpr hgap
  obtain ⟨husable, rfl⟩ := Settings.ticks_eq_ok_iff.mp hticks
  constructor
  case ofSeed => rfl
  case count =>
    rw [htotal]
    exact Int.toNat_of_nonneg (Int.le_of_lt (Int64.lt_iff_toInt_lt.mp husable.tickCount))
  case tape =>
    refine ⟨records, _, records.map Record.settled, hmemory, read?_of_write? hwrite, ?_, ?_⟩
    · have hrecords := Tape.records_tapeBytes records
      rw [← hbytes] at hrecords
      exact hrecords
    · rw [List.length_map, hlength, htotal]
  case kept =>
    intro place hplace hplace'
    have hkept := (hdrafted.trans hremoved).kept hgrown (mt hwritten.resolve_iff.mpr hplace')
    exact hkept.changed hwritten hplace
  case leads =>
    intro path place
    exact (((hgrown.keeps.trans hdrafted.keeps).trans hremoved.keeps).trans hwritten.keeps).resolve
  case gone =>
    refine ⟨gap, hgap', ?_⟩
    rw [hwritten.others gap ?_, hnone]
    intro hplace
    exact resolve_append_ne (by decide) (by decide) hplace hgap rfl

theorem made_of_run (hseed : settings.seed = some seed)
    (h : run (m := OnDisk) settings disk = (.ok report, after)) :
    settings.Usable ∧ Made settings seed report disk after := by
  rw [run] at h
  cases hticks : settings.ticks with
  | error cause =>
      simp only [hticks, Disk.pure_apply] at h
      cases h
  | ok ticks =>
      simp only [hticks, Disk.bind_apply, seedOf_apply, hseed, Option.getD_some] at h
      exact ⟨(Settings.ticks_eq_ok_iff.mp hticks).1, made_of_makeFile hticks h⟩

/-- A tape that is made as a file is the one that is made in memory, and all that is
new on the disk. Where it goes and what was there before has no say in it. -/
theorem run_made (hseed : settings.seed = some seed)
    (h : run (m := OnDisk) settings disk = (.ok report, after)) :
    Made settings seed report disk after ∧
      ∀ (other : Settings) (disk' after' : Disk) (report' : Report), settings.SameTape other →
        run (m := OnDisk) other disk' = (.ok report', after') →
        report'.stats = report.stats ∧
          after'.tree.read? other.outputPath = after.tree.read? settings.outputPath := by
  obtain ⟨husable, hmade⟩ := made_of_run hseed h
  refine ⟨hmade, ?_⟩
  intro other disk' after' report' hsame h'
  obtain ⟨husable', hmade'⟩ := made_of_run (hsame.seed.trans hseed) h'
  obtain ⟨_, bytes, _, hmemory, hread, -⟩ := hmade.tape
  obtain ⟨_, bytes', _, hmemory', hread', -⟩ := hmade'.tape
  have hticks := Settings.ticks_eq_ok_iff.mpr ⟨husable, rfl⟩
  have hticks' := Settings.ticks_eq_ok_iff.mpr ⟨husable', rfl⟩
  rw [hsame.tickCount] at hticks'
  obtain ⟨hstats, rfl⟩ := hmemory.eq_of_sameTape hmemory' hticks hticks' hsame
  exact ⟨hstats, hread'.trans hread.symm⟩

/-! ## A disk that takes every tape -/

/-- A disk without limits takes a tape if files can be written at both of its paths. -/
theorem exists_run (husable : settings.Usable) (hseed : settings.seed = some seed)
    (hroom : disk.room = none) (hsyncs : disk.syncs = true)
    (hmade : (disk.tree.makeDirectories settings.outputDir).1 = true)
    (hdraft : ((disk.tree.makeDirectories settings.outputDir).2.write?
      (draftPath settings.outputPath) .empty).isSome = true)
    (htarget : ((disk.tree.makeDirectories settings.outputDir).2.write?
      settings.outputPath .empty).isSome = true) :
    ∃ report after, run (m := OnDisk) settings disk = (.ok report, after) := by
  have hticks := Settings.ticks_eq_ok_iff.mpr ⟨husable, rfl⟩
  obtain ⟨⟨stats, bytes⟩, hcontents⟩ := exists_contents husable seed
  obtain ⟨created, hcreate⟩ := Option.isSome_iff_exists.mp hdraft
  obtain ⟨_, htarget⟩ := Option.isSome_iff_exists.mp htarget
  have hcreated := changedAt_write? hcreate
  obtain ⟨filled, hfill⟩ := exists_write? hcreate hcreated bytes
  have hread := read?_of_write? hfill
  obtain ⟨removed, hremove⟩ := exists_remove hread
  have hchanged := (hcreated.trans (changedAt_write? hfill)).trans (changedAt_remove hremove).1
  obtain ⟨moved, hmove⟩ := exists_write? htarget hchanged bytes
  have hrename := rename?_eq_some_iff.mpr ⟨bytes, removed, hread, hremove, hmove⟩
  have hok : ∃ report, (run (m := OnDisk) settings disk).1 = .ok report := by
    simp only [run, hticks, Disk.bind_apply, seedOf_apply, hseed, Option.getD_some, makeFile,
      Disk.report_apply]
    rw [Disk.makeDirectories_apply]
    simp only [hmade, if_true, Disk.bind_apply, write]
    rw [Disk.create_apply]
    simp only [hcreate, if_true, Disk.bind_apply, Disk.report_apply, Disk.room_apply, hroom,
      hcontents, Disk.fill_apply, hfill, Disk.sync_apply, hsyncs, Disk.pure_apply]
    rw [Disk.rename_apply]
    simp only [hrename, if_true, Disk.bind_apply, Disk.pure_apply]
    exact ⟨_, rfl⟩
  obtain ⟨report, hreport⟩ := hok
  exact ⟨report, _, Prod.ext hreport rfl⟩

/-- A disk with a tape and what is left of a draft, and room for more. -/
def roomyDisk : Disk where
  tree :=
    { FileTree.empty with
      nodes := [(["data"], .directory),
        (["data", "synthetic_ticks.csv"], .file "TYPE\n".toByteArray),
        (["data", "synthetic_ticks.csv.partial"], .file "TYPE".toByteArray)] }
  room := none
  syncs := true
  nextSeed := 0
  journal := #[]

theorem run_made_roomyDisk :
    ∃ report after, oneTick.seed = some 7 ∧
      run (m := OnDisk) oneTick roomyDisk = (.ok report, after) ∧
      Made oneTick 7 report roomyDisk after ∧
      ∀ (other : Settings) (disk' after' : Disk) (report' : Report), oneTick.SameTape other →
        run (m := OnDisk) other disk' = (.ok report', after') →
        report'.stats = report.stats ∧
          after'.tree.read? other.outputPath = after.tree.read? oneTick.outputPath := by
  have hexists : ∃ report after, run (m := OnDisk) oneTick roomyDisk = (.ok report, after) :=
    exists_run usable_oneTick rfl rfl rfl (by decide +kernel) (by decide +kernel)
      (by decide +kernel)
  obtain ⟨report, after, hrun⟩ := hexists
  exact ⟨report, after, rfl, hrun, run_made rfl hrun⟩

end Generation

end MarketTape
