import MarketTape.World.Basic
import MarketTape.World.FileTree

/-!
# Disks

A disk is a world of files as a value: a file tree, the bytes that a new file has
room for, whether files can be kept for good, the seed that comes next, and what
was reported.
-/

namespace MarketTape

/-- A world of files. -/
structure Disk where
  tree : FileTree
  /-- How many bytes a new file can take, if there is a limit. -/
  room : Option Nat
  syncs : Bool
  nextSeed : UInt64
  journal : Array Event

/-- What is done on a disk. -/
abbrev OnDisk := StateM Disk

namespace Disk

/-- A disk with a tree, without limits and with nothing reported. -/
def ofTree (tree : FileTree) (nextSeed : UInt64) : Disk :=
  { tree, room := none, syncs := true, nextSeed, journal := #[] }

/-- A step on the tree of a disk. -/
def onTree (step : FileTree → α × FileTree) : OnDisk α := fun disk =>
  let (result, tree) := step disk.tree
  (result, { disk with tree })

/-- A step that changes the tree unless it fails. -/
def attempt (step : FileTree → Option FileTree) : OnDisk Bool :=
  onTree fun tree =>
    match step tree with
    | some tree => (true, tree)
    | none => (false, tree)

/-- Removes the file at a path. -/
def remove (path : String) : OnDisk Removal :=
  onTree fun tree =>
    match tree.remove path with
    | .ok tree => (.removed, tree)
    | .error .absent => (.absent, tree)
    | .error .refused => (.refused, tree)

instance : World OnDisk where
  read path := fun disk => (disk.tree.read? path, disk)
  makeDirectories path := onTree (·.makeDirectories path)
  create path := attempt (·.write? path .empty)
  room := fun disk => (disk.room, disk)
  fill path contents := onTree fun tree =>
    match tree.write? path contents with
    | some tree => (.ok (), tree)
    | none => (.error "no such file", tree)
  sync _ := fun disk => (disk.syncs, disk)
  rename source target := attempt (·.rename? source target)
  remove := remove
  freshSeed := fun disk => (disk.nextSeed, disk)
  listen _ := pure ()
  report event := fun disk => ((), { disk with journal := disk.journal.push event })

end Disk

end MarketTape
