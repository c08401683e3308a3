import LoraSchedule.Number.Printing
import LoraSchedule.Schedule.Entry
import LoraSchedule.Text.Basic

/-!
# The text form of entries

An entry is one line: its name, its two strengths, the points of its curve, and its preset or its
block weights.  Numbers have up to four decimals.
-/

namespace LoraSchedule

open LoraSchedule.Number (Binary Double)

/-- A number with up to four decimals and no zero at its end. -/
def formatValue (value : Double) : List Char :=
  let text := value.toFixed 4
  if '.' ∈ text then Text.dropEndWhile (· = '.') (Text.dropEndWhile (· = '0') text) else text

/-- Block weights by ascending id. -/
def formatVectors (vectors : Dict Double) : List Char :=
  Text.joinWith [';'] (vectors.toList.map fun entry => entry.1.toList ++ '=' :: formatValue entry.2)

/-- Points by ascending place. -/
def formatPoints (points : List KeyPoint) : List Char :=
  Text.joinWith [';'] ((sortPoints points).map fun p => formatValue p.x ++ ',' :: formatValue p.y)

namespace Entry

/-- What a line starts and ends with. -/
def opening : List Char := "<lora:".toList

def closing : List Char := ">".toList

/-- The last field of a line: the preset, else the block weights, if there are any. -/
def renderExtra (e : Entry) : List Char :=
  match e.activePreset? with
  | some id => ":preset=".toList ++ id.toList
  | none => if e.vectors.isEmpty then [] else ":vectors=".toList ++ formatVectors e.vectors

/-- The line of an entry.  Without points it is written with the flat curve. -/
def renderChars (e : Entry) : List Char :=
  opening ++ e.name.toList ++ ':' :: formatValue e.modelStrength ++ ':' ::
    formatValue e.clipStrength ++ ':' ::
    formatPoints (if e.points = [] then flatCurve else e.points) ++ e.renderExtra ++ closing

def render (e : Entry) : String := String.ofList e.renderChars

/-- The lines of several entries. -/
def renderAll (entries : List Entry) : String :=
  String.ofList (Text.joinWith ['\n'] (entries.map renderChars))

end Entry

end LoraSchedule
