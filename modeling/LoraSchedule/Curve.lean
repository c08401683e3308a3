import LoraSchedule.Schedule.Entry

/-!
# Padding strength curves

A curve that does not cover the whole process is continued to both ends at strength zero, with a
short ramp instead of a step.
-/

namespace LoraSchedule

open LoraSchedule.Number (Binary Double)

/-- How far from a curve the ramp to it starts. -/
def rampWidth : Double := Binary.ofDecimal ⟨false, 1, -3⟩

/-- Points of strength zero before a curve that starts at `first`. -/
def leadIn (first : Double) : List KeyPoint :=
  let start : Double := Binary.ofNat 0
  let near := first - rampWidth
  if start.less first then
    ⟨start, Binary.ofNat 0⟩ ::
      if rampWidth.less first then
        [⟨if near.less start then start else near, Binary.ofNat 0⟩]
      else []
  else []

/-- Points of strength zero after a curve that ends at `last`. -/
def leadOut (last : Double) : List KeyPoint :=
  let stop : Double := Binary.ofNat 1
  let near := last + rampWidth
  if last.less stop then
    (if last.less (stop - rampWidth) then
      [⟨if stop.less near then stop else near, Binary.ofNat 0⟩]
    else []) ++ [⟨stop, Binary.ofNat 0⟩]
  else []

/-- A sorted curve continued to the start and the end of the process. -/
def padPoints (points : List KeyPoint) : List KeyPoint :=
  match points.head?, points.getLast? with
  | some first, some last => leadIn first.x ++ points ++ leadOut last.x
  | _, _ => []

end LoraSchedule
