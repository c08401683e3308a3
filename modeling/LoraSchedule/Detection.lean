import LoraSchedule.Container.Fingerprint
import LoraSchedule.Container.Loader
import LoraSchedule.Sidecar
import LoraSchedule.Statistics.OfNorms

/-!
# Analysing a file

The family of a file is the one its sidecars name, or else the one its header shows.  Its statistics
are those of the norms of its tensors.
-/

namespace LoraSchedule

open LoraSchedule.Container (Header Loader LoadError isContainerPath)
open LoraSchedule.Number (Binary Double)

/-- The family of a file; unknown where nothing names or shows one. -/
def detect (t : FileTree) (p : Path) : Architecture :=
  if !t.pathExists p then .unknown
  else
    match Sidecar.architectureOfFile? t p with
    | some named => named
    | none =>
      if !isContainerPath p then .unknown
      else
        match Header.read t p with
        | .ok header => header.family?.getD .unknown
        | .error _ => .unknown

/-- What a tensor without dimensions counts, and one that cannot be decoded. -/
def nominalNorm : Double := Binary.ofDecimal ⟨false, 1, -2⟩

/-- The norm that a tensor counts with. -/
def countedNorm : Except LoadError Tensor → Double
  | .ok tensor => if 1 ≤ tensor.rank then tensor.norm else nominalNorm
  | .error _ => nominalNorm

/-- The statistics of a file read as one of a family; `none` if it cannot be loaded. -/
def statisticsOf? (t : FileTree) (loader : Loader) (p : Path) (architecture : Architecture) :
    Option (Statistics Double) :=
  match loader.visit t p with
  | .ok tensors =>
    some (.ofNorms architecture (tensors.map fun tensor => (tensor.1, countedNorm tensor.2)))
  | .error _ => none

end LoraSchedule
