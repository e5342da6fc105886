/-!
# Paths

A path is a list of parts with slashes between them. The empty part and `.` stay
where they are, `..` goes up, and a slash at the head starts from the root.
-/

namespace MarketTape.Path

/-- What stands between the slashes of a text, before the first and behind the
last. -/
def split : List Char → List (List Char)
  | [] => [[]]
  | c :: rest =>
    if c = '/' then [] :: split rest
    else
      match split rest with
      | part :: parts => (c :: part) :: parts
      | [] => [[c]]

/-- The parts of a path as it is written. -/
def parts (path : String) : List String := (split path.toList).map String.ofList

/-- Whether a path starts from the root. -/
def isRooted (path : String) : Bool := path.toList.head? == some '/'

/-- The path of a file in a directory. A file with a path from the root lies
where it says. -/
def join (directory file : String) : String :=
  if isRooted file then file
  else if directory.isEmpty || directory.toList.getLast? == some '/' then directory ++ file
  else directory ++ "/" ++ file

/-- The parts of a path that tell it from others: empty parts say nothing, and
`.` only says something at the very head. -/
def essence (path : String) : List String :=
  match parts path with
  | [] => []
  | head :: rest =>
    let told := rest.filter fun part => part ≠ "" ∧ part ≠ "."
    if head = "" then told else head :: told

/-- Whether two paths are the same but for parts that say nothing. -/
def agrees (a b : String) : Bool := isRooted a == isRooted b && essence a == essence b

end MarketTape.Path
