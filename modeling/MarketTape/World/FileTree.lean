import MarketTape.Path

/-!
# File trees

A file tree says which names are files and which are directories, and which
directory is the current one. A path is followed part by part, from the root or
from the current directory, and every part but the last must lead through a
directory that is there. What an operation does to a tree is told by
`FileTree.find?`: each changes what is found at the places it names and nothing
else.
-/

namespace MarketTape

/-- What a name in a tree stands for. -/
inductive Node where
  | file (contents : ByteArray)
  | directory

/-- A place in a tree: the names that lead to it from the root. -/
abbrev Location := List String

/-- A tree, as the list of what lies below its root. -/
structure FileTree where
  nodes : List (Location × Node)
  /-- The current directory, where a path starts that does not start from the root. -/
  current : Location

/-- Why a path leads nowhere. -/
inductive PathError where
  /-- A name on the way is not there. -/
  | absent
  /-- The path leads through a file, or no name can be as it says. -/
  | refused
deriving DecidableEq, Repr

namespace FileTree

/-- A tree with nothing below its root, which is the current directory. -/
def empty : FileTree := ⟨[], []⟩

/-- The node at a place among nodes below the root. -/
def nodeAt? (place : Location) : List (Location × Node) → Option Node
  | [] => none
  | (other, node) :: nodes => if other = place then some node else nodeAt? place nodes

/-- Nodes without those at a place. -/
def nodesBut (place : Location) : List (Location × Node) → List (Location × Node)
  | [] => []
  | (other, node) :: nodes =>
    if other = place then nodesBut place nodes else (other, node) :: nodesBut place nodes

theorem nodeAt?_nodesBut (place other : Location) (nodes : List (Location × Node)) :
    nodeAt? other (nodesBut place nodes) =
      if other = place then none else nodeAt? other nodes := by
  induction nodes with
  | nil => simp [nodesBut, nodeAt?]
  | cons entry nodes ih =>
    obtain ⟨name, node⟩ := entry
    by_cases here : name = place
    · by_cases same : other = place
      · subst same
        simpa [nodesBut, here] using ih
      · simp [nodesBut, nodeAt?, here, ih, same, Ne.symm same]
    · by_cases same : name = other
      · subst same
        simp [nodesBut, nodeAt?, here]
      · simp [nodesBut, nodeAt?, here, ih, same]

/-- What lies at a place; the root is a directory. -/
def find? (tree : FileTree) (place : Location) : Option Node :=
  if place = [] then some .directory else nodeAt? place tree.nodes

/-- The tree with nothing at a place. -/
def erase (tree : FileTree) (place : Location) : FileTree :=
  { tree with nodes := nodesBut place tree.nodes }

/-- The tree with something at a place. -/
def put (tree : FileTree) (place : Location) (node : Node) : FileTree :=
  { tree with nodes := (place, node) :: (tree.erase place).nodes }

@[simp] theorem find?_root (tree : FileTree) : tree.find? [] = some .directory := rfl

@[simp] theorem current_erase (tree : FileTree) (place : Location) :
    (tree.erase place).current = tree.current := rfl

@[simp] theorem current_put (tree : FileTree) (place : Location) (node : Node) :
    (tree.put place node).current = tree.current := rfl

/-- Erasing a place leaves every other place alone. -/
theorem find?_erase {place : Location} (below : place ≠ []) (tree : FileTree) (other : Location) :
    (tree.erase place).find? other = if other = place then none else tree.find? other := by
  by_cases root : other = []
  · simp [find?, root, Ne.symm below]
  · simp [find?, root, erase, nodeAt?_nodesBut]

/-- Putting something at a place leaves every other place alone. -/
theorem find?_put {place : Location} (below : place ≠ []) (tree : FileTree) (node : Node)
    (other : Location) :
    (tree.put place node).find? other = if other = place then some node else tree.find? other := by
  by_cases root : other = []
  · simp [find?, root, Ne.symm below]
  · by_cases same : other = place
    · simp [find?, put, nodeAt?, same, below]
    · simp [find?, root, put, erase, nodeAt?, nodeAt?_nodesBut, same, Ne.symm same]

/-! ## Following paths -/

/-- The most bytes that a name has. -/
def nameLimit : Nat := 255

/-- The most bytes that a path has. -/
def pathLimit : Nat := 4095

/-- Follows the parts of a path from a place. Where the last of them leads need
not be there. -/
def follow (tree : FileTree) : Location → List String → Except PathError Location
  | place, [] => .ok place
  | place, part :: rest =>
    match tree.find? place with
    | none => .error .absent
    | some (.file _) => .error .refused
    | some .directory =>
      if part = "" ∨ part = "." then follow tree place rest
      else if part = ".." then follow tree place.dropLast rest
      else if part.utf8ByteSize ≤ nameLimit then follow tree (place ++ [part]) rest
      else .error .refused

/-- The place where a path starts. -/
def start (tree : FileTree) (path : String) : Location :=
  if Path.isRooted path then [] else tree.current

/-- The place that a path leads to. A path with a null character leads nowhere,
and neither does the empty path. -/
def resolve (tree : FileTree) (path : String) : Except PathError Location :=
  if path = "" then .error .absent
  else if path.utf8ByteSize ≤ pathLimit ∧ '\x00' ∉ path.toList then
    follow tree (tree.start path) (Path.parts path)
  else .error .refused

/-! ## Operations -/

/-- The contents of the file at a path. -/
def read? (tree : FileTree) (path : String) : Option ByteArray :=
  match tree.resolve path with
  | .error _ => none
  | .ok place =>
    match tree.find? place with
    | some (.file contents) => some contents
    | _ => none

/-- Makes the file at a path or replaces its contents, unless there is a
directory. -/
def write? (tree : FileTree) (path : String) (contents : ByteArray) : Option FileTree :=
  match tree.resolve path with
  | .error _ => none
  | .ok place =>
    match tree.find? place with
    | some .directory => none
    | _ => some (tree.put place (.file contents))

/-- Moves the file at one path to another path, over a file that is there but
not over a directory. -/
def rename? (tree : FileTree) (source target : String) : Option FileTree :=
  match tree.resolve source, tree.resolve target with
  | .ok source, .ok target =>
    match tree.find? source, tree.find? target with
    | some (.file _), some .directory => none
    | some (.file contents), _ => some ((tree.erase source).put target (.file contents))
    | _, _ => none
  | _, _ => none

/-- Removes the file at a path. -/
def remove (tree : FileTree) (path : String) : Except PathError FileTree :=
  match tree.resolve path with
  | .error error => .error error
  | .ok place =>
    match tree.find? place with
    | none => .error .absent
    | some .directory => .error .refused
    | some (.file _) => .ok (tree.erase place)

/-- Makes the directories on the way from a place along parts that are not there
yet, up to the first part where none can be. -/
def makeAlong (tree : FileTree) : Location → List String → Except PathError Location × FileTree
  | place, [] => (.ok place, tree)
  | place, part :: rest =>
    match tree.follow place [part] with
    | .error error => (.error error, tree)
    | .ok next =>
      match tree.find? next with
      | some .directory => makeAlong tree next rest
      | some (.file _) => (.error .refused, tree)
      | none => makeAlong (tree.put next .directory) next rest

/-- Makes the directories of a path that are not there yet, and says whether they
all are there then. The empty path asks for none. A path that ends in `.` asks
for a directory that is there already, and only those above it are made. -/
def makeDirectories (tree : FileTree) (path : String) : Bool × FileTree :=
  if path = "" then (true, tree)
  else if path.utf8ByteSize ≤ pathLimit ∧ '\x00' ∉ path.toList then
    let named := (Path.parts path).filter (· ≠ "")
    let names := named.filter (· ≠ ".")
    let start := tree.start path
    if named.getLast? = some "." then
      let (result, tree) := tree.makeAlong start names.dropLast
      (result.isOk && (tree.follow start (names ++ ["."])).isOk, tree)
    else
      let (result, tree) := tree.makeAlong start names
      (result.isOk, tree)
  else (false, tree)

/-! ## The current directory -/

/-- The tree with the directory at a path for its current one. -/
def enter? (tree : FileTree) (path : String) : Option FileTree :=
  match tree.resolve path with
  | .error _ => none
  | .ok place =>
    match tree.find? place with
    | some .directory => some { tree with current := place }
    | _ => none

/-- What lies below the current directory, each with the names that lead to it
from there. -/
def below (tree : FileTree) : List (Location × Node) :=
  tree.nodes.filterMap fun (place, node) =>
    let way := place.drop tree.current.length
    if way ≠ [] ∧ tree.current ++ way = place then some (way, node) else none

/-- What lies below the current directory are the nodes whose place is the way to
them behind that directory's own. -/
theorem mem_below_iff {tree : FileTree} {way : Location} {node : Node} :
    (way, node) ∈ tree.below ↔ way ≠ [] ∧ (tree.current ++ way, node) ∈ tree.nodes := by
  constructor
  · intro member
    obtain ⟨⟨place, other⟩, listed, found⟩ := List.mem_filterMap.mp member
    simp only [Option.ite_none_right_eq_some, Option.some.injEq, Prod.mk.injEq] at found
    obtain ⟨⟨some, whole⟩, rfl, rfl⟩ := found
    exact ⟨some, whole.symm ▸ listed⟩
  · rintro ⟨some, listed⟩
    refine List.mem_filterMap.mpr ⟨(tree.current ++ way, node), listed, ?_⟩
    simp [some]

end FileTree

end MarketTape
