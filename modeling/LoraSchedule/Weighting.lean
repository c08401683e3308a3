import LoraSchedule.Block.Basic
import LoraSchedule.Container.Tensor
import LoraSchedule.Preset
import LoraSchedule.Statistics.Basic

/-!
# Block weights

A preset gives a file a factor for each of its blocks; block weights then scale the tensors of the
blocks.
-/

namespace LoraSchedule

open LoraSchedule.Number (Binary Double Format)

/-- The number with four decimals nearest to a number; of two equally near, the one further from
zero. -/
def round4 (value : Double) : Double :=
  (value * Binary.ofNat 10000).round / Binary.ofNat 10000

/-- Whether a factor is so near to one that it is left out. -/
def isNeutral (factor : Double) : Bool :=
  !(Binary.ofDecimal ⟨false, 1, -3⟩).less (factor - Binary.ofNat 1).abs

/-- The role of a block by its id: as recorded, else as the id itself says. -/
def roleOfId (architecture : Architecture) (records : Dict BlockRecord) (id : String) : Role :=
  match records.get? id with
  | some record => record.role
  | none => (Block.ofKey architecture.layout id).role architecture.layout 0

/-- The factors that a preset gives to blocks, neutral ones left out; an id that names no preset
gives none. -/
def presetWeights (architecture : Architecture) (preset : String) (ids : List String)
    (records : Dict BlockRecord) : Dict Double :=
  match Preset.ofId? preset with
  | none => ∅
  | some preset =>
    Dict.ofList (ids.filterMap fun id =>
      let factor := round4 (preset.weight (roleOfId architecture records id))
      if isNeutral factor then none else some (id, factor))

/-- Scales the tensors of the blocks that have a weight. -/
def applyWeights (architecture : Architecture) (weights : Dict Double) (tensors : TensorDict) :
    TensorDict :=
  tensors.map fun key tensor =>
    match weights.get? (Block.ofKey architecture.layout key).id with
    | some factor => tensor.scale (factor.convert .single)
    | none => tensor

end LoraSchedule
