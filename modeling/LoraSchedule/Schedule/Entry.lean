import LoraSchedule.Architecture.Basic
import LoraSchedule.Dict
import LoraSchedule.Number.Decimal
import LoraSchedule.Preset

/-!
# Schedule entries

An entry activates one LoRA: it says which, how strongly, over which part of the sampling process,
and with which weights for its blocks.
-/

namespace LoraSchedule

open LoraSchedule.Number (Binary Double)

/-- A point of a strength curve: the fraction of the process, and the strength there. -/
structure KeyPoint where
  x : Double
  y : Double
deriving DecidableEq

/-- Points sorted by their place; points at one place keep their order. -/
def sortPoints (points : List KeyPoint) : List KeyPoint :=
  points.mergeSort fun a b => a.x.totalAtMost b.x

/-- The curve of constant full strength. -/
def flatCurve : List KeyPoint :=
  [⟨Binary.ofNat 0, Binary.ofNat 1⟩, ⟨Binary.ofNat 1, Binary.ofNat 1⟩]

structure Entry where
  name : String
  modelStrength : Double
  clipStrength : Double
  points : List KeyPoint
  enabled : Bool
  architecture : Architecture
  /-- The weights of blocks, by their ids. -/
  vectors : Dict Double
  /-- The id of a preset, which need not be in the catalog. -/
  preset : Option String
deriving DecidableEq

namespace Entry

/-- An entry at full strength without curve, weights or preset. -/
def ofName (name : String) : Entry :=
  { name, modelStrength := Binary.ofNat 1, clipStrength := Binary.ofNat 1, points := [],
    enabled := true, architecture := .unknown, vectors := ∅, preset := none }

/-- The entry with its points in order. -/
def sorted (e : Entry) : Entry := { e with points := sortPoints e.points }

/-- The preset that an entry is written with; weights set by hand are written out instead. -/
def activePreset? (e : Entry) : Option String :=
  e.preset.filter fun id => id ≠ "" ∧ id ≠ Preset.customId

/-- Whether a strength is too small to have an effect. -/
def isNegligible (strength : Double) : Bool :=
  strength.abs.less (Binary.ofDecimal ⟨false, 1, -6⟩)

/-- Whether an entry has no effect. -/
def isSilent (e : Entry) : Bool := isNegligible e.modelStrength && isNegligible e.clipStrength

end Entry

end LoraSchedule
