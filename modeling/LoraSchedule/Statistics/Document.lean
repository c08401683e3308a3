import LoraSchedule.Json.Record
import LoraSchedule.Statistics.Basic

/-!
# Statistics as JSON

The record form of statistics.
-/

namespace LoraSchedule

open LoraSchedule.Json (Value Written)
open LoraSchedule.Number (Double)

def BlockRecord.ofWritten? (written : Written) : Option BlockRecord := do
  let [role, group] ← written.record? ["tag", "group"] | none
  return ⟨← Written.required Written.name? role >>= Role.ofName?,
    ← Written.required Written.name? group >>= BlockGroup.ofName?⟩

def BlockRecord.toJson (r : BlockRecord) : Value :=
  .object [("tag", .string r.role.name), ("group", .string r.group.name)]

namespace Statistics

/-- Reads statistics; every field has to be written. -/
def ofWritten? (written : Written) : Option (Statistics Double) := do
  let [total, energy, blocks, sparsity, balance] ← written.record?
    ["total_energy", "energy_distribution", "block_metadata", "sparsity", "balance"] | none
  return {
    totalEnergy := ← Written.required Written.double? total
    energy := ← Written.required (Written.dict? Written.double?) energy
    blocks := ← Written.required (Written.dict? BlockRecord.ofWritten?) blocks
    sparsity := ← Written.required Written.double? sparsity
    balance := ← Written.required Written.double? balance }

def ofText? (text : String) : Option (Statistics Double) :=
  Written.ofText? text.toList >>= ofWritten?

/-- The record of statistics. -/
def toJson (s : Statistics Double) : Value :=
  .object [
    ("total_energy", .ofDouble s.totalEnergy),
    ("energy_distribution", .ofDict (s.energy.map fun _ => Value.ofDouble)),
    ("block_metadata", .ofDict (s.blocks.map fun _ => BlockRecord.toJson)),
    ("sparsity", .ofDouble s.sparsity),
    ("balance", .ofDouble s.balance)]

end Statistics

end LoraSchedule
