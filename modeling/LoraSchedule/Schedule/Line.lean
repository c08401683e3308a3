import LoraSchedule.Schedule.Document
import LoraSchedule.Schedule.Rendering

/-!
# Reading schedule text

A schedule text has an entry on each line of the form `<lora:NAME:MODEL:CLIP:…>`; other lines are
passed over.  The fields after the strengths come in two encodings.  In the modern one each field
says by its form whether it holds points, block weights or a preset.  In the legacy one they are
the numbers of a ramp, which is read as the points it runs through.

Nothing is an error: what cannot be read keeps its default, or is left out.
-/

namespace LoraSchedule

open LoraSchedule.Number (Binary Double)
open LoraSchedule.Json (Value)
open LoraSchedule.Text

namespace Line

/-! ## Numbers -/

/-- A finite number with blanks around it. -/
def readNumber? (text : List Char) : Option Double := Number.readFinite? (trim text)

/-- A whole number with blanks around it. -/
def readCount? (text : List Char) : Option Int := Number.readInteger? (trim text)

/-- The number that the text form of a number reads as. -/
def quantize (value : Double) : Double :=
  if value.isFinite then Binary.ofDecimal ⟨value.negative, value.fixedUnits 4, -4⟩
  else if value.isNaN then Binary.nan
  else value

/-! ## Encodings -/

/-- How the fields after the strengths are written. -/
inductive Encoding
  | legacyRamp
  | modern
deriving DecidableEq

/-- The fourth of many fields tells the encodings apart: only a ramp has a bare number there. -/
def Encoding.ofFields (fields : List (List Char)) : Encoding :=
  match fields[3]? with
  | some field =>
    if 9 ≤ fields.length ∧ (readNumber? field).isSome ∧
        ¬('=' ∈ field ∨ ',' ∈ field ∨ ';' ∈ field) then .legacyRamp
    else .modern
  | none => .modern

/-! ## The legacy encoding -/

/-- A straight ramp of strengths over a part of the process. -/
structure Ramp where
  firstStrength : Double
  lastStrength : Double
  firstPlace : Double
  lastPlace : Double
  count : Nat

/-- The most points that a ramp may have. -/
def maxRampPoints : Nat := 1000

/-- The ramp that the fields of a line describe, if its number of points is in bounds. -/
def Ramp.ofFields? (fields : List (List Char)) : Option Ramp := do
  let number (index : Nat) : Option Double := fields[index]? >>= readNumber?
  let count ← fields[8]? >>= readCount?
  guard (count ≤ maxRampPoints)
  return ⟨← number 3, ← number 4, ← number 6, ← number 7, count.toNat⟩

/-- The value a share of the way from one number to another. -/
def between (first last share : Double) : Double := first + (last - first) * share

/-- A point of a ramp. -/
def Ramp.point (r : Ramp) (index : Nat) : KeyPoint :=
  let share : Double :=
    if 1 < r.count then Binary.ofNat index / Binary.ofNat (r.count - 1) else Binary.ofNat 0
  ⟨quantize (between r.firstPlace r.lastPlace share),
    quantize (between r.firstStrength r.lastStrength share)⟩

/-- The points of a ramp, evenly spread over it. -/
def Ramp.points (r : Ramp) : List KeyPoint := (List.range r.count).map r.point

/-! ## The modern encoding -/

/-- Adds a block weight; a pair without a separator or number is left out. -/
def addVector (vectors : Dict Double) (pair : List Char) : Dict Double :=
  match (splitOnce? '=' pair).or (splitOnce? ':' pair) with
  | none => vectors
  | some (key, value) =>
    match readNumber? value with
    | none => vectors
    | some number => vectors.insert (String.ofList (trim key)) number

/-- Adds block weights written as pairs. -/
def addVectors (vectors : Dict Double) (text : List Char) : Dict Double :=
  (((text.splitOn ';').map trim).filter (· ≠ [])).foldl addVector vectors

/-- A point written as two numbers. -/
def readPoint? (pair : List Char) : Option KeyPoint :=
  match pair.splitOn ',' with
  | [x, y] => do return ⟨← readNumber? x, ← readNumber? y⟩
  | _ => none

/-- Points in a row; pairs that are no points are left out. -/
def readPoints (text : List Char) : List KeyPoint := (text.splitOn ';').filterMap readPoint?

/-- Takes a field into an entry. -/
def applyField (e : Entry) (field : List Char) : Entry :=
  match afterPrefix? "preset=".toList field with
  | some id => { e with preset := some (String.ofList (trim id)) }
  | none =>
    match afterPrefix? "vectors=".toList field with
    | some pairs => { e with vectors := addVectors e.vectors pairs }
    | none => if ',' ∈ field then { e with points := e.points ++ readPoints field } else e

/-! ## Lines -/

/-- The fields of a line, if it has the form of an entry. -/
def fields? (line : List Char) : Option (List (List Char)) := do
  let body ← beforeSuffix? Entry.closing (← afterPrefix? Entry.opening (trim line))
  return body.splitOn ':'

/-- The name and strengths of an entry; a strength that is no number is full. -/
def headEntry (fields : List (List Char)) : Entry :=
  let entry := Entry.ofName (String.ofList (fields[0]?.getD []))
  let strength (index : Nat) (standard : Double) : Double :=
    (fields[index]? >>= readNumber?).getD standard
  { entry with
    modelStrength := strength 1 entry.modelStrength
    clipStrength := strength 2 entry.clipStrength }

/-- The entry that fields describe. -/
def entryOfFields (fields : List (List Char)) : Entry :=
  let head := headEntry fields
  let entry :=
    match Encoding.ofFields fields with
    | .legacyRamp => { head with points := ((Ramp.ofFields? fields).map Ramp.points).getD [] }
    | .modern => ((fields.drop 3).map trim).foldl applyField head
  Entry.sorted (if entry.points = [] then { entry with points := flatCurve } else entry)

/-- The entry on a line. -/
def read? (line : List Char) : Option Entry := (fields? line).map entryOfFields

end Line

/-! ## Texts -/

namespace Schedule

/-- The entries of the lines of a text. -/
def ofLines (text : List Char) : List Entry := (lines text).filterMap Line.read?

/-- The documents of a text that is a JSON list. -/
def jsonItems? (text : List Char) : Option (List Value) :=
  let trimmed := trim text
  if trimmed.head? = some '[' then Value.ofText? trimmed >>= Value.array? else none

/-- The entries of a schedule text, or of a JSON list of entries. -/
def parse (text : String) : List Entry :=
  match jsonItems? text.toList with
  | some items => Entry.ofDocuments items
  | none => ofLines text.toList

end Schedule

end LoraSchedule
