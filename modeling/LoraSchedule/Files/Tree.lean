import LoraSchedule.Files.Path

/-!
# File trees

A state of the file system: which names lead from the root to a file, a directory or a link, and
the directory in which relative paths start.  All that the library does with files is a function of
such a state.
-/

namespace LoraSchedule

inductive Node
  | file (contents : Bytes)
  | directory
  /-- A symbolic link, with the path that is written in it. -/
  | link (target : Path)
deriving DecidableEq

/-- A file tree.  The root is a directory without being listed. -/
structure FileTree where
  nodes : List (List Bytes × Node)
  workingDirectory : List Bytes

namespace FileTree

/-! ## Places -/

/-- What is at a place, given by the names that lead there from the root. -/
def nodeAt? (t : FileTree) (names : List Bytes) : Option Node :=
  if names = [] then some .directory else t.nodes.lookup names

/-- How far a path leads without following links. -/
inductive Walk
  | arrived (place : List Bytes)
  /-- A link in a directory, and the parts of the path after it. -/
  | atLink (folder : List Bytes) (target : Path) (rest : List Bytes)
  | lost
deriving DecidableEq

/-- Goes along the parts of a path from a place up to the first link.  Every part but a last name
has to start from a directory. -/
def walk (t : FileTree) : (place : List Bytes) → (segments : List Bytes) → Walk
  | place, [] => .arrived place
  | place, segment :: rest =>
    if t.nodeAt? place ≠ some .directory then .lost
    else
      match Path.component? segment with
      | some (.name name) =>
        match t.nodeAt? (place ++ [name]) with
        | none => .lost
        | some (.link target) => .atLink place target rest
        | some _ => walk t (place ++ [name]) rest
      | some .parent => walk t place.dropLast rest
      | _ => walk t place rest

/-- The place in which a path starts that is written in a directory. -/
def startFrom (folder : List Bytes) (p : Path) : List Bytes := if p.isAbsolute then [] else folder

/-- Follows the parts of a path from a place, and at most a number of links.  Returns how many
more links may be followed from the place that the path leads to. -/
def follow? (t : FileTree) (links : Nat) (place : List Bytes) (segments : List Bytes) :
    Option (Nat × List Bytes) :=
  match t.walk place segments with
  | .arrived place => some (links, place)
  | .lost => none
  | .atLink folder target rest =>
    match links with
    | 0 => none
    | links + 1 =>
      if target.bytes = [] then none
      else t.follow? links (startFrom folder target) (Path.segments target.bytes ++ rest)

/-- How many links a path may lead through. -/
def maxLinks : Nat := 40

/-- Follows a path.  The empty path leads nowhere. -/
def trace? (t : FileTree) (p : Path) : Option (Nat × List Bytes) :=
  if p.bytes = [] then none
  else t.follow? maxLinks (startFrom t.workingDirectory p) (Path.segments p.bytes)

/-- The place that a path leads to, if there is anything. -/
def locate? (t : FileTree) (p : Path) : Option (List Bytes) := (t.trace? p).map Prod.snd

/-- What a path leads to. -/
def node? (t : FileTree) (p : Path) : Option Node := t.locate? p >>= t.nodeAt?

/-! ## Questions about paths -/

def pathExists (t : FileTree) (p : Path) : Bool := (t.node? p).isSome

/-- The contents of the file that a path leads to. -/
def read? (t : FileTree) (p : Path) : Option Bytes :=
  match t.node? p with
  | some (.file contents) => some contents
  | _ => none

def isFile (t : FileTree) (p : Path) : Bool := (t.read? p).isSome

def isDirectory (t : FileTree) (p : Path) : Bool := t.node? p = some .directory

/-- The text of a file, unless its contents are no UTF-8. -/
def readText? (t : FileTree) (p : Path) : Option String :=
  t.read? p >>= fun contents => String.fromUTF8? ⟨contents.toArray⟩

/-- The files below a directory, by the names that lead to them from there; links are not
followed.  A directory is listed by name, and what is in a directory is listed at the place of its
name. -/
def filesBelow (t : FileTree) (place : List Bytes) : List (List Bytes) :=
  let below := t.nodes.filterMap fun node =>
    match node.2 with
    | .file _ => if place.isPrefixOf node.1 then some (node.1.drop place.length) else none
    | _ => none
  (below.filter (· ≠ [])).mergeSort fun a b => !decide (b < a)

/-! ## Changes -/

/-- The tree with a node at a place. -/
def put (t : FileTree) (names : List Bytes) (node : Node) : FileTree :=
  { t with nodes := (names, node) :: t.nodes.filter fun other => other.1 ≠ names }

/-- The tree with a directory at a place, and at every place on the way there. -/
def addDirectory (t : FileTree) (names : List Bytes) : FileTree :=
  (List.range names.length).foldl (fun t count =>
    let place := names.take (count + 1)
    if (t.nodeAt? place).isSome then t else t.put place .directory) t

/-- The tree with a file at a place. -/
def addFile (t : FileTree) (names : List Bytes) (contents : Bytes) : FileTree :=
  (t.addDirectory names.dropLast).put names (.file contents)

/-- The tree without the node at a place. -/
def remove (t : FileTree) (names : List Bytes) : FileTree :=
  { t with nodes := t.nodes.filter fun node => node.1 ≠ names }

end FileTree

end LoraSchedule
