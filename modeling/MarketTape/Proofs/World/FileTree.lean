import MarketTape.Proofs.Path
import MarketTape.World.FileTree

/-!
# What changes in a file tree

Two kinds of change are told apart. A tree grows by directories that are made where
nothing was, and it changes at a path where only the file that the path leads to may
be another, or come or go. Neither takes a directory away, so that every path which
led somewhere leads there still.
-/

namespace MarketTape.FileTree

/-! ## Paths in a tree -/

variable {tree before middle after : FileTree} {place next last : Location} {path part : String}

theorem follow_append_eq_ok {front back : List String} :
    tree.follow place (front ++ back) = .ok last ↔
      ∃ next, tree.follow place front = .ok next ∧ tree.follow next back = .ok last := by
  induction front generalizing place with
  | nil => simp [follow]
  | cons part front ih =>
      rw [List.cons_append, follow, follow]
      split
      · simp
      · simp
      · split
        · exact ih
        · split
          · exact ih
          · split
            · exact ih
            · simp

theorem follow_cons_eq_ok {rest : List String} :
    tree.follow place (part :: rest) = .ok last ↔
      ∃ next, tree.follow place [part] = .ok next ∧ tree.follow next rest = .ok last := by
  rw [← List.singleton_append, follow_append_eq_ok]

/-- What a single part of a path does. -/
theorem follow_singleton_eq_ok :
    tree.follow place [part] = .ok next ↔
      tree.find? place = some .directory ∧
        (if part = "" ∨ part = "." then next = place
        else if part = ".." then next = place.dropLast
        else part.utf8ByteSize ≤ nameLimit ∧ next = place ++ [part]) := by
  rw [follow]
  split
  · rename_i hnone
    simp [hnone]
  · rename_i hfile
    simp [hfile]
  · rename_i hdirectory
    simp only [hdirectory, true_and, follow]
    split
    · simp [eq_comm]
    · split
      · simp [eq_comm]
      · split
        · rename_i hfits
          simp [hfits, eq_comm]
        · rename_i hlong
          simp [hlong]

theorem find?_of_follow {rest : List String} (h : tree.follow place (part :: rest) = .ok last) :
    tree.find? place = some .directory := by
  obtain ⟨next, hpart, -⟩ := follow_cons_eq_ok.mp h
  exact (follow_singleton_eq_ok.mp hpart).1

theorem resolve_eq_ok (h : tree.resolve path = .ok place) :
    path ≠ "" ∧ tree.follow (tree.start path) (Path.parts path) = .ok place := by
  rw [resolve] at h
  split at h
  · cases h
  · rename_i hne
    split at h
    · exact ⟨hne, h⟩
    · cases h

/-- A name with something behind it is found elsewhere than the name itself. -/
theorem resolve_append_ne {suffix : String} (hslash : '/' ∉ suffix.toList)
    (hlong : 2 < suffix.length) (h : tree.resolve path = .ok place)
    (hlonger : tree.resolve (path ++ suffix) = .ok next) : next ≠ place := by
  obtain ⟨hne, hpath⟩ := resolve_eq_ok h
  obtain ⟨-, hpath'⟩ := resolve_eq_ok hlonger
  obtain ⟨front, name, hparts, hparts'⟩ := Path.exists_parts_append hslash path
  rw [hparts, follow_append_eq_ok] at hpath
  rw [start, Path.isRooted_append hne, ← start, hparts', follow_append_eq_ok] at hpath'
  obtain ⟨directory, hfront, hname⟩ := hpath
  obtain ⟨directory', hfront', hname'⟩ := hpath'
  obtain rfl := Except.ok.inj (hfront.symm.trans hfront')
  have hplain {word : String} (hword : word.length ≤ 2) : name ++ suffix ≠ word := by
    rintro rfl
    rw [String.length_append] at hword
    omega
  have hnext := (follow_singleton_eq_ok.mp hname').2
  rw [if_neg (not_or.mpr ⟨hplain (by decide), hplain (by decide)⟩),
    if_neg (hplain (by decide))] at hnext
  have hplace := (follow_singleton_eq_ok.mp hname).2
  rw [hnext.2]
  rintro rfl
  split at hplace
  · have hlength := congrArg List.length hplace
    rw [List.length_append, List.length_singleton] at hlength
    omega
  · split at hplace
    · have hlength := congrArg List.length hplace
      rw [List.length_append, List.length_singleton, List.length_dropLast] at hlength
      omega
    · have hname := List.singleton_inj.mp (List.append_cancel_left hplace.2)
      have hsame := congrArg String.length hname
      rw [String.length_append] at hsame
      omega

/-! ## Changes that keep all directories -/

/-- The current directory stays, and every directory. -/
structure Keeps (before after : FileTree) : Prop where
  current : after.current = before.current
  directory : ∀ {place}, before.find? place = some .directory → after.find? place = some .directory

namespace Keeps

theorem start (h : Keeps before after) (path : String) : after.start path = before.start path := by
  rw [FileTree.start, FileTree.start, h.current]

theorem follow (h : Keeps before after) {parts : List String}
    (hfollow : before.follow place parts = .ok last) : after.follow place parts = .ok last := by
  induction parts generalizing place with
  | nil => exact hfollow
  | cons part parts ih =>
      obtain ⟨next, hpart, hrest⟩ := follow_cons_eq_ok.mp hfollow
      obtain ⟨hdirectory, hstep⟩ := follow_singleton_eq_ok.mp hpart
      exact follow_cons_eq_ok.mpr
        ⟨next, follow_singleton_eq_ok.mpr ⟨h.directory hdirectory, hstep⟩, ih hrest⟩

/-- A path that leads somewhere leads there still. -/
theorem resolve (h : Keeps before after) (hresolve : before.resolve path = .ok place) :
    after.resolve path = .ok place := by
  rw [FileTree.resolve] at hresolve ⊢
  split at hresolve
  · cases hresolve
  · split at hresolve
    · rename_i hne hfits
      rw [if_neg hne, if_pos hfits, h.start]
      exact h.follow hresolve
    · cases hresolve

end Keeps

/-! ## Trees that grow -/

/-- One tree comes of another by directories that are made at places of some kind,
where nothing was. -/
structure Grown (made : Location → Prop) (before after : FileTree) : Prop where
  current : after.current = before.current
  find? : ∀ place, after.find? place = before.find? place ∨
    before.find? place = none ∧ after.find? place = some .directory ∧ made place

namespace Grown

variable {made made' : Location → Prop}

theorem refl (tree : FileTree) : Grown made tree tree := ⟨rfl, fun _ => .inl rfl⟩

theorem trans (h : Grown made before middle) (h' : Grown made middle after) :
    Grown made before after where
  current := h'.current.trans h.current
  find? place := by
    obtain hsame' | ⟨hnone', hmade'⟩ := h'.find? place
    · rw [hsame']
      exact h.find? place
    · obtain hsame | ⟨-, hdirectory, -⟩ := h.find? place
      · exact .inr ⟨hsame ▸ hnone', hmade'⟩
      · rw [hdirectory] at hnone'
        cases hnone'

theorem keeps (h : Grown made before after) : Keeps before after where
  current := h.current
  directory {place} hdirectory := by
    obtain hsame | ⟨-, hmade, -⟩ := h.find? place
    · rw [hsame, hdirectory]
    · exact hmade

theorem imp (h : Grown made before after) (hmade : ∀ place, made place → made' place) :
    Grown made' before after where
  current := h.current
  find? place := (h.find? place).imp_right fun ⟨hnone, hdirectory, hplace⟩ =>
    ⟨hnone, hdirectory, hmade place hplace⟩

end Grown

theorem grown_put (h : tree.find? place = none) :
    Grown (· = place) tree (tree.put place .directory) where
  current := rfl
  find? other := by
    have hbelow : place ≠ [] := by
      rintro rfl
      cases h
    rw [find?_put hbelow]
    split
    · rename_i hsame
      exact .inr ⟨hsame ▸ h, rfl, hsame⟩
    · exact .inl rfl

/-- Directories are only made on the way along the names. -/
theorem grown_makeAlong (tree : FileTree) (place : Location) (names : List String) :
    Grown (fun next => ∃ front, front <+: names ∧
      (tree.makeAlong place names).2.follow place front = .ok next)
      tree (tree.makeAlong place names).2 := by
  induction names generalizing tree place with
  | nil => exact .refl tree
  | cons name names ih =>
      have hstep {start : FileTree} {next : Location} (hkeeps : Keeps tree start)
          (hname : tree.follow place [name] = .ok next) :
          Grown (fun made => ∃ front, front <+: name :: names ∧
            (start.makeAlong next names).2.follow place front = .ok made)
            start (start.makeAlong next names).2 := by
        have hrest := ih start next
        refine hrest.imp ?_
        rintro made ⟨front, hfront, hmade⟩
        exact ⟨name :: front, List.cons_prefix_cons.mpr ⟨rfl, hfront⟩,
          follow_cons_eq_ok.mpr ⟨next, hrest.keeps.follow (hkeeps.follow hname), hmade⟩⟩
      rw [makeAlong]
      split
      · exact .refl tree
      · rename_i next hname
        split
        · exact hstep ⟨rfl, id⟩ hname
        · exact .refl tree
        · rename_i hnone
          have hput := grown_put hnone
          have hrest := hstep hput.keeps hname
          refine (hput.imp ?_).trans hrest
          rintro made rfl
          exact ⟨[name], List.cons_prefix_cons.mpr ⟨rfl, List.nil_prefix⟩,
            hrest.keeps.follow (hput.keeps.follow hname)⟩

/-- The names that tell where a path leads take the same way as all of its parts. -/
theorem exists_front {parts front : List String}
    (hfront : front <+: (parts.filter (· ≠ "")).filter (· ≠ "."))
    (h : tree.follow place front = .ok next) :
    ∃ front', front' <+: parts ∧ tree.follow place front' = .ok next := by
  induction parts generalizing place front with
  | nil => exact ⟨front, hfront, h⟩
  | cons part parts ih =>
      cases front with
      | nil => exact ⟨[], List.nil_prefix, h⟩
      | cons name front =>
          by_cases hidle : part = "" ∨ part = "."
          · have hrest : name :: front <+: (parts.filter (· ≠ "")).filter (· ≠ ".") := by
              obtain rfl | rfl := hidle <;> simpa using hfront
            obtain ⟨front', hfront', hfollow⟩ := ih hrest h
            refine ⟨part :: front', List.cons_prefix_cons.mpr ⟨rfl, hfront'⟩, ?_⟩
            exact follow_cons_eq_ok.mpr ⟨place, follow_singleton_eq_ok.mpr
              ⟨find?_of_follow h, by rw [if_pos hidle]⟩, hfollow⟩
          · obtain ⟨hempty, hdot⟩ := not_or.mp hidle
            rw [List.filter_cons_of_pos (by simpa using hempty),
              List.filter_cons_of_pos (by simpa using hdot), List.cons_prefix_cons] at hfront
            obtain ⟨rfl, hrest⟩ := hfront
            obtain ⟨middle, hpart, hfollow⟩ := follow_cons_eq_ok.mp h
            obtain ⟨front', hfront', hfollow'⟩ := ih hrest hfollow
            exact ⟨name :: front', List.cons_prefix_cons.mpr ⟨rfl, hfront'⟩,
              follow_cons_eq_ok.mpr ⟨middle, hpart, hfollow'⟩⟩

/-- A beginning of the path leads to the place. -/
def Along (tree : FileTree) (path : String) (place : Location) : Prop :=
  ∃ front, front <+: Path.parts path ∧ tree.follow (tree.start path) front = .ok place

/-- The place holds what it held, or a directory along the path where nothing was. -/
def Kept (path : String) (before after : FileTree) (place : Location) : Prop :=
  after.find? place = before.find? place ∨
    before.find? place = none ∧ after.find? place = some .directory ∧ after.Along path place

/-- Directories are only made along the path that asks for them. -/
theorem grown_makeDirectories (tree : FileTree) (path : String) :
    Grown ((tree.makeDirectories path).2.Along path) tree (tree.makeDirectories path).2 := by
  have halong {names : List String}
      (hnames : names <+: ((Path.parts path).filter (· ≠ "")).filter (· ≠ ".")) :
      Grown ((tree.makeAlong (tree.start path) names).2.Along path) tree
        (tree.makeAlong (tree.start path) names).2 := by
    have hgrown := grown_makeAlong tree (tree.start path) names
    refine hgrown.imp ?_
    rintro made ⟨front, hfront, hmade⟩
    rw [Along, hgrown.keeps.start path]
    exact exists_front (hfront.trans hnames) hmade
  rw [makeDirectories]
  split
  · exact .refl tree
  · split
    · simp only
      split
      · exact halong (List.dropLast_prefix _)
      · exact halong (List.prefix_refl _)
    · exact .refl tree

/-! ## Changes at a path -/

/-- Only the file that a path leads to is another, or came or went. -/
structure ChangedAt (path : String) (before after : FileTree) : Prop where
  current : after.current = before.current
  directory : ∀ place, after.find? place = some .directory ↔ before.find? place = some .directory
  others : ∀ place, before.resolve path ≠ .ok place → after.find? place = before.find? place

namespace ChangedAt

theorem refl (path : String) (tree : FileTree) : ChangedAt path tree tree :=
  ⟨rfl, fun _ => Iff.rfl, fun _ _ => rfl⟩

theorem keeps (h : ChangedAt path before after) : Keeps before after :=
  ⟨h.current, (h.directory _).mpr⟩

theorem keeps_back (h : ChangedAt path before after) : Keeps after before :=
  ⟨h.current.symm, (h.directory _).mp⟩

/-- Every path leads where it led. -/
theorem resolve_iff (h : ChangedAt path before after) {other : String} :
    after.resolve other = .ok place ↔ before.resolve other = .ok place :=
  ⟨h.keeps_back.resolve, h.keeps.resolve⟩

theorem trans (h : ChangedAt path before middle) (h' : ChangedAt path middle after) :
    ChangedAt path before after where
  current := h'.current.trans h.current
  directory place := (h'.directory place).trans (h.directory place)
  others place hplace := by
    rw [h'.others place (mt h.resolve_iff.mp hplace), h.others place hplace]

end ChangedAt

/-- A change at a path leaves what is kept at all other places. -/
theorem Kept.changed {directory : String} (h : Kept directory before middle place)
    (hchanged : ChangedAt path middle after) (hplace : after.resolve path ≠ .ok place) :
    Kept directory before after place := by
  have hother := hchanged.others place (mt hchanged.resolve_iff.mpr hplace)
  obtain hsame | ⟨hnone, hdirectory, front, hfront, hfollow⟩ := h
  · exact .inl (hother.trans hsame)
  · refine .inr ⟨hnone, (hchanged.directory place).mpr hdirectory, front, hfront, ?_⟩
    rw [hchanged.keeps.start]
    exact hchanged.keeps.follow hfollow

/-- The changes at a path leave all other places as directories have been made there. -/
theorem ChangedAt.kept {directory : String} (h : ChangedAt path middle after)
    (hgrown : Grown (middle.Along directory) before middle)
    (hplace : after.resolve path ≠ .ok place) : Kept directory before after place :=
  Kept.changed (hgrown.find? place) h hplace

theorem Keeps.trans (h : Keeps before middle) (h' : Keeps middle after) : Keeps before after where
  current := h'.current.trans h.current
  directory hdirectory := h'.directory (h.directory hdirectory)

/-- A directory has no contents either, where it was made. -/
theorem Kept.read?_eq {directory : String} (h : Kept directory before after place)
    (hkeeps : Keeps before after) (hplace : before.resolve path = .ok place) :
    after.read? path = before.read? path := by
  rw [read?, read?, hplace, hkeeps.resolve hplace]
  obtain hsame | ⟨hnone, hdirectory, -⟩ := h
  · simp only [hsame]
  · simp only [hnone, hdirectory]

/-- To put a file where a path leads, or nothing, is a change at that path. -/
theorem changedAt_of_find? (hplace : tree.resolve path = .ok place)
    (hbefore : tree.find? place ≠ some .directory) {node : Option Node}
    (hnode : node ≠ some .directory) (hcurrent : after.current = tree.current)
    (hfind : ∀ other, after.find? other = if other = place then node else tree.find? other) :
    ChangedAt path tree after where
  current := hcurrent
  directory other := by
    rw [hfind]
    split
    · rename_i hsame
      rw [hsame]
      exact iff_of_false hnode hbefore
    · rfl
  others other hother := by
    rw [hfind, if_neg]
    rintro rfl
    exact hother hplace

theorem write?_eq_some_iff {contents : ByteArray} :
    tree.write? path contents = some after ↔
      ∃ place, tree.resolve path = .ok place ∧ tree.find? place ≠ some .directory ∧
        tree.put place (.file contents) = after := by
  rw [write?]
  constructor
  · intro h
    split at h
    · cases h
    · rename_i place hplace
      split at h
      · cases h
      · rename_i hnot
        exact ⟨place, hplace, hnot, Option.some.inj h⟩
  · rintro ⟨place, hplace, hnot, rfl⟩
    rw [hplace]
    cases hfind : tree.find? place with
    | none => simp only [hfind]
    | some node =>
        cases node with
        | file => simp only [hfind]
        | directory => exact absurd hfind hnot

/-- The root is a directory. -/
theorem ne_root (h : tree.find? place ≠ some .directory) : place ≠ [] := by
  rintro rfl
  exact h rfl

theorem changedAt_write? {contents : ByteArray} (h : tree.write? path contents = some after) :
    ChangedAt path tree after := by
  obtain ⟨place, hplace, hnot, rfl⟩ := write?_eq_some_iff.mp h
  exact changedAt_of_find? hplace hnot (by simp) rfl (find?_put (ne_root hnot) tree _)

/-- What is written to a path is read there. -/
theorem read?_of_write? {contents : ByteArray} (h : tree.write? path contents = some after) :
    after.read? path = some contents := by
  have hchanged := changedAt_write? h
  obtain ⟨place, hplace, hnot, rfl⟩ := write?_eq_some_iff.mp h
  rw [read?, hchanged.resolve_iff.mpr hplace]
  simp only [find?_put (ne_root hnot), if_true]

/-- Whether a path can be written does not depend on what is written, nor on changes of
files. -/
theorem exists_write? {other : String} {contents : ByteArray}
    (h : before.write? path contents = some middle) (hchanged : ChangedAt other before tree)
    (contents' : ByteArray) : ∃ after, tree.write? path contents' = some after := by
  obtain ⟨place, hplace, hnot, -⟩ := write?_eq_some_iff.mp h
  exact ⟨_, write?_eq_some_iff.mpr
    ⟨place, hchanged.resolve_iff.mpr hplace, mt (hchanged.directory place).mp hnot, rfl⟩⟩

theorem remove_eq_ok_iff :
    tree.remove path = .ok after ↔
      ∃ place contents, tree.resolve path = .ok place ∧
        tree.find? place = some (.file contents) ∧ tree.erase place = after := by
  rw [remove]
  constructor
  · intro h
    split at h
    · cases h
    · rename_i place hplace
      split at h
      · cases h
      · cases h
      · rename_i contents hfile
        exact ⟨place, contents, hplace, hfile, Except.ok.inj h⟩
  · rintro ⟨place, contents, hplace, hfile, rfl⟩
    rw [hplace]
    simp only [hfile]

/-- A file that can be read can be removed. -/
theorem exists_remove {contents : ByteArray} (h : tree.read? path = some contents) :
    ∃ after, tree.remove path = .ok after := by
  rw [read?] at h
  split at h
  · cases h
  · rename_i place hplace
    split at h
    · rename_i found hfile
      exact ⟨_, remove_eq_ok_iff.mpr ⟨place, found, hplace, hfile, rfl⟩⟩
    · cases h

/-- Nothing is left where a file was removed. -/
theorem changedAt_remove (h : tree.remove path = .ok after) :
    ChangedAt path tree after ∧
      ∃ place, after.resolve path = .ok place ∧ after.find? place = none := by
  obtain ⟨place, contents, hplace, hfile, rfl⟩ := remove_eq_ok_iff.mp h
  have hnot : tree.find? place ≠ some .directory := by simp [hfile]
  have hfind := find?_erase (ne_root hnot) tree
  have hchanged : ChangedAt path tree (tree.erase place) :=
    changedAt_of_find? hplace hnot (by simp) rfl hfind
  exact ⟨hchanged, place, hchanged.resolve_iff.mpr hplace, by rw [hfind, if_pos rfl]⟩

theorem read?_of_find? (hplace : tree.resolve path = .ok place) (hnone : tree.find? place = none) :
    tree.read? path = none := by
  rw [read?, hplace]
  simp only [hnone]

/-- Where no file can be removed there is none. -/
theorem read?_of_remove {error : PathError} (h : tree.remove path = .error error) :
    tree.read? path = none := by
  rw [remove] at h
  rw [read?]
  split at h
  · rfl
  · split at h
    · rename_i hnone
      simp only [hnone]
    · rename_i hdirectory
      simp only [hdirectory]
    · cases h

/-- To move a file is to remove it and to write what it held to the other path. -/
theorem rename?_eq_some_iff {target : String} :
    tree.rename? path target = some after ↔
      ∃ contents removed, tree.read? path = some contents ∧ tree.remove path = .ok removed ∧
        removed.write? target contents = some after := by
  constructor
  · intro h
    rw [rename?] at h
    split at h
    · rename_i place other hplace hother
      split at h
      · cases h
      · rename_i node contents hfile hnot
        have hremove : tree.remove path = .ok (tree.erase place) :=
          remove_eq_ok_iff.mpr ⟨place, contents, hplace, hfile, rfl⟩
        have hchanged := (changedAt_remove hremove).1
        refine ⟨contents, tree.erase place, ?_, hremove, write?_eq_some_iff.mpr
          ⟨other, hchanged.resolve_iff.mpr hother, ?_, Option.some.inj h⟩⟩
        · rw [read?, hplace]
          simp only [hfile]
        · rw [Ne, hchanged.directory]
          exact hnot
      · cases h
    · cases h
  · rintro ⟨contents, removed, hread, hremove, hwrite⟩
    have hchanged := (changedAt_remove hremove).1
    obtain ⟨place, contents', hplace, hfile, rfl⟩ := remove_eq_ok_iff.mp hremove
    obtain ⟨other, hother, hnot, rfl⟩ := write?_eq_some_iff.mp hwrite
    rw [hchanged.resolve_iff] at hother
    rw [Ne, hchanged.directory] at hnot
    rw [read?, hplace] at hread
    simp only [hfile, Option.some.injEq] at hread
    rw [rename?, hplace, hother]
    simp only [hfile, hread]

end MarketTape.FileTree
