import MarketTape.World.Disk

/-!
# Steps on a disk

What each step on a disk answers and what it leaves, so that steps in a row can be
followed one after the other.
-/

namespace MarketTape.Disk

variable {α β : Type} (disk : Disk) (path : String)

@[simp] theorem bind_apply (step : OnDisk α) (next : α → OnDisk β) :
    (step >>= next) disk = next (step disk).1 (step disk).2 := rfl

@[simp] theorem pure_apply (value : α) : (pure value : OnDisk α) disk = (value, disk) := rfl

@[simp] theorem ite_apply (condition : Prop) [Decidable condition] (step other : OnDisk α) :
    (if condition then step else other) disk = if condition then step disk else other disk := by
  split <;> rfl

@[simp] theorem makeDirectories_apply :
    (World.makeDirectories path : OnDisk Bool) disk =
      ((disk.tree.makeDirectories path).1,
        { disk with tree := (disk.tree.makeDirectories path).2 }) := rfl

theorem attempt_apply (step : FileTree → Option FileTree) :
    attempt step disk =
      match step disk.tree with
      | some tree => (true, { disk with tree })
      | none => (false, disk) := by
  rw [attempt, onTree]
  cases step disk.tree <;> rfl

@[simp] theorem create_apply :
    (World.create path : OnDisk Bool) disk =
      match disk.tree.write? path .empty with
      | some tree => (true, { disk with tree })
      | none => (false, disk) := attempt_apply disk _

@[simp] theorem room_apply : (World.room : OnDisk (Option Nat)) disk = (disk.room, disk) := rfl

@[simp] theorem fill_apply (contents : ByteArray) :
    (World.fill path contents : OnDisk (Except String Unit)) disk =
      match disk.tree.write? path contents with
      | some tree => (.ok (), { disk with tree })
      | none => (.error "no such file", disk) := by
  change onTree _ disk = _
  rw [onTree]
  cases disk.tree.write? path contents <;> rfl

@[simp] theorem sync_apply : (World.sync path : OnDisk Bool) disk = (disk.syncs, disk) := rfl

@[simp] theorem rename_apply (target : String) :
    (World.rename path target : OnDisk Bool) disk =
      match disk.tree.rename? path target with
      | some tree => (true, { disk with tree })
      | none => (false, disk) := attempt_apply disk _

@[simp] theorem remove_apply :
    (World.remove path : OnDisk Removal) disk =
      match disk.tree.remove path with
      | .ok tree => (.removed, { disk with tree })
      | .error .absent => (.absent, disk)
      | .error .refused => (.refused, disk) := by
  change Disk.remove path disk = _
  rw [remove, onTree]
  cases disk.tree.remove path with
  | ok tree => rfl
  | error error => cases error <;> rfl

@[simp] theorem freshSeed_apply :
    (World.freshSeed : OnDisk UInt64) disk = (disk.nextSeed, disk) := rfl

@[simp] theorem report_apply (event : Event) :
    (World.report event : OnDisk Unit) disk =
      ((), { disk with journal := disk.journal.push event }) := rfl

end MarketTape.Disk
