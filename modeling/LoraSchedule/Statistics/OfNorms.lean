import LoraSchedule.Block.Basic
import LoraSchedule.Statistics.Balance
import LoraSchedule.Statistics.Sparsity

/-!
# The statistics of tensor norms

Each tensor adds its norm to the energy of its block.
-/

namespace LoraSchedule.Statistics

open LoraSchedule.Number (Scalar)

variable {α : Type} [Scalar α]

/-- The block of a tensor and what is recorded about it. -/
def blockOf (architecture : Architecture) (layerCount : Nat) (key : String) :
    String × BlockRecord :=
  let layout := architecture.layout
  let block := Block.ofKey layout key
  (block.id, ⟨block.role layout layerCount, BlockGroup.ofId block.id⟩)

/-- Adds a norm to the energy of a block; a block without energy starts at zero. -/
def addEnergy (energy : Dict α) (id : String) (norm : α) : Dict α :=
  energy.insert id ((energy.get? id).getD Scalar.zero + norm)

/-- Records a block unless it is recorded already. -/
def recordBlock (blocks : Dict BlockRecord) (id : String) (record : BlockRecord) :
    Dict BlockRecord :=
  if blocks.contains id then blocks else blocks.insert id record

/-- The statistics of a file of a family, from the norms of its tensors. -/
def ofNorms (architecture : Architecture) (norms : List (String × α)) : Statistics α :=
  let blockOf := blockOf architecture (Block.layerCount (norms.map Prod.fst))
  let energy := norms.foldl (fun energy tensor => addEnergy energy (blockOf tensor.1).1 tensor.2) ∅
  { totalEnergy := norms.foldl (fun sum tensor => sum + tensor.2) Scalar.zero
    energy := energy
    blocks := norms.foldl (fun blocks tensor =>
      recordBlock blocks (blockOf tensor.1).1 (blockOf tensor.1).2) ∅
    sparsity := gini energy.values
    balance := balanceOf energy }

end LoraSchedule.Statistics
