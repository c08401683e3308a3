import LoraSchedule.Text.Basic
import LoraSchedule.Text.Utf8

/-!
# Paths

A path is kept as it is written: two spellings of one place are two paths.  It consists of bytes,
which need not be a text.  Its parts are separated by slashes; empty parts and single points name
nothing, except that a path may start with a point.
-/

namespace LoraSchedule

structure Path where
  bytes : Bytes
deriving DecidableEq, Inhabited

namespace Path

open LoraSchedule.Text

/-- The path that a text spells. -/
def ofString (text : String) : Path := ⟨text⟩

instance : Coe String Path := ⟨ofString⟩

/-- A path as it is shown. -/
def text (p : Path) : String := String.ofList (Utf8.decode p.bytes)

/-- The byte between parts. -/
def slash : UInt8 := 0x2F

/-- The byte before an extension. -/
def point : UInt8 := 0x2E

/-- A part of a path. -/
inductive Component
  | root
  /-- A single point at the start. -/
  | current
  | parent
  | name (bytes : Bytes)
deriving DecidableEq

/-- What a part between slashes names, after the first. -/
def component? (segment : Bytes) : Option Component :=
  if segment = [] ∨ segment = [point] then none
  else if segment = [point, point] then some .parent
  else some (.name segment)

/-- The parts between slashes. -/
def segments (bytes : Bytes) : List Bytes := bytes.splitOn slash

def components (p : Path) : List Component :=
  let start : List Component :=
    if p.bytes.head? = some slash then [.root]
    else if (segments p.bytes).head? = some [point] then [.current]
    else []
  start ++ (segments p.bytes).filterMap component?

def isAbsolute (p : Path) : Bool := p.bytes.head? = some slash

/-! ## Names -/

/-- The name of the file that a path leads to, if it ends in a name. -/
def fileName? (p : Path) : Option Bytes :=
  match p.components.getLast? with
  | some (.name bytes) => some bytes
  | _ => none

/-- A file name without its extension. -/
def fileStem? (p : Path) : Option Bytes := p.fileName?.map fun name => (splitName point name).1

/-- The extension of a file name. -/
def extension? (p : Path) : Option Bytes := p.fileName? >>= fun name => (splitName point name).2

/-! ## Composition -/

/-- A path continued by another; an absolute one replaces it. -/
def join (p q : Path) : Path :=
  if q.isAbsolute then q
  else if p.bytes = [] ∨ p.bytes.getLast? = some slash then ⟨p.bytes ++ q.bytes⟩
  else ⟨p.bytes ++ slash :: q.bytes⟩

/-- Drops the parts that name nothing from the end of a list of segments. -/
def dropNameless (segments : List Bytes) : List Bytes :=
  (segments.reverse.dropWhile fun segment => segment = [] ∨ segment = [point]).reverse

/-- A path without its last component, if it ends in a name. -/
def parentOf (bytes : Bytes) : Bytes :=
  -- A slash or a point at the start is a component of its own and stays.
  let (start, body) :=
    if bytes.head? = some slash then ([slash], bytes.drop 1)
    else if bytes.take 2 = [point, slash] then ([point], bytes.drop 1)
    else ([], bytes)
  start ++ joinWith [slash] (dropNameless (dropNameless (segments body)).dropLast)

/-- The path with another file name. -/
def withFileName (p : Path) (name : Bytes) : Path :=
  let folder : Path := if p.fileName?.isSome then ⟨parentOf p.bytes⟩ else p
  folder.join ⟨name⟩

end Path

end LoraSchedule
