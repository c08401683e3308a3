import LoraSchedule.Files.Tree
import LoraSchedule.Text.Lowercase

/-!
# Finding files by name

Schedules name LoRA files by a file name, its stem or the end of a path.  A name is looked up below
a list of roots: first as a path from each root, then among all files of a known kind.
-/

namespace LoraSchedule

/-- Where files are searched, and by which extensions they are known. -/
structure SearchPath where
  roots : List Path
  extensions : List String

namespace SearchPath

open LoraSchedule.Text

/-- The extensions of LoRA files. -/
def defaultExtensions : List String := ["safetensors", "pt", "pth", "ckpt", "bin"]

/-- The directory for data of a user, if the environment names one. -/
def dataDirectory? (dataHome home : Option String) : Option Path :=
  match dataHome.filter fun text => (text : Path).isAbsolute with
  | some text => some text
  | none => (home.filter (· ≠ "")).map fun text => (text : Path).join ".local/share"

/-- The roots searched where none are configured: a folder beside the program's work, and one
among the data of the user. -/
def defaultRoots (dataDirectory : Option Path) : List Path :=
  ["loras", ((dataDirectory.getD ".").join "loraplan").join "loras"]

/-- A search below some roots for files of the usual kinds. -/
def ofRoots (roots : List Path) : SearchPath := ⟨roots, defaultExtensions⟩

/-- Replaces the extensions; points before them and the case of their letters do not matter. -/
def withExtensions (s : SearchPath) (extensions : List String) : SearchPath :=
  { s with extensions := extensions.map fun e =>
      String.ofList (lowercase (e.toList.dropWhile (· = '.'))) }

/-- What is said of a root that is no directory. -/
def invalidRootMessage (root : Path) : String := "Search root is not a directory: " ++ root.text

/-- Adds a root, which has to be a directory. -/
def addRoot? (s : SearchPath) (t : FileTree) (root : Path) : Option SearchPath :=
  if t.isDirectory root then some { s with roots := s.roots ++ [root] } else none

/-! ## Candidates -/

/-- Whether a file name has one of the extensions; an extension that is no text is none of them. -/
def accepts (s : SearchPath) (name : Bytes) : Bool :=
  match (splitName Path.point name).2 >>= Utf8.text? with
  | some ending => s.extensions.contains (String.ofList (lowercase ending))
  | none => false

/-- A file that may be found: the names that lead to it from a root, and its path. -/
structure Candidate where
  names : List Bytes
  path : Path
deriving DecidableEq

/-- The names that lead to a file, as a path. -/
def relativePath (names : List Bytes) : Path := ⟨joinWith [Path.slash] names⟩

/-- The files of a known kind below a root. -/
def candidatesBelow (s : SearchPath) (t : FileTree) (root : Path) : List Candidate :=
  match t.locate? root with
  | none => []
  | some place =>
    ((t.filesBelow place).filter fun names => (names.getLast?.map s.accepts).getD false).map
      fun names => ⟨names, root.join (relativePath names)⟩

/-- The files of a known kind below all roots, in the order of the roots. -/
def candidates (s : SearchPath) (t : FileTree) : List Candidate :=
  s.roots.flatMap (s.candidatesBelow t)

/-! ## Matches -/

/-- A text with slashes for backslashes and in lower case. -/
def normalize (text : List Char) : List Char :=
  lowercase (text.map fun c => if c = '\\' then '/' else c)

/-- A name as it is shown, in lower case. -/
def folded (name : Bytes) : List Char := lowercase (Utf8.decode name)

/-- How well a file matches a query: its name, or at least its stem, has to be the query's, and it
helps if a query of several parts occurs in the path of the file. -/
def score? (query : String) (names : List Bytes) : Option Nat :=
  let sought : Path := query
  let name := names.getLast?.getD []
  let fragment := normalize query.toList
  let bonus :=
    if '/' ∈ fragment ∧
        containsText fragment (normalize (relativePath names).text.toList) then 25 else 0
  if some (folded name) = sought.fileName?.map folded then some (100 + bonus)
  else if some (folded (splitName Path.point name).1) = sought.fileStem?.map folded then
    some (50 + bonus)
  else none

/-- The first of the best matches. -/
def best? (query : String) (candidates : List Candidate) : Option Candidate :=
  (candidates.foldl (fun (best : Option (Nat × Candidate)) candidate =>
    match score? query candidate.names, best with
    | none, best => best
    | some score, none => some (score, candidate)
    | some score, some held => if held.1 < score then some (score, candidate) else some held)
    none).map Prod.snd

/-- Whether a name leads to a place below every directory it starts from. -/
def staysInside (name : String) : Bool :=
  (name : Path).components.all fun c => c ≠ .root ∧ c ≠ .parent

/-- The file that a name stands for. -/
def resolve? (s : SearchPath) (t : FileTree) (name : String) : Option Path :=
  if name = "" ∨ !staysInside name then none
  else
    match (s.roots.map fun root => root.join name).find? t.isFile with
    | some direct => some direct
    | none =>
      -- A query that ends in a point has no file name to compare with.
      if (name : Path).fileName?.isNone then none
      else (best? name (s.candidates t)).map Candidate.path

end SearchPath

end LoraSchedule
