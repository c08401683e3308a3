import LoraSchedule.Proofs.Json.Decoding
import LoraSchedule.Statistics.Document

/-!
# Statistics read back

The record of statistics has every field under its own name, blocks and roles
under theirs, and numbers in digits that read back as they are: printed
statistics are read as the statistics (`Statistics.ofText?_printed`).
-/

namespace LoraSchedule

open LoraSchedule.Json
open LoraSchedule.Number

/-! ## Names -/

@[simp] theorem Role.ofName?_name (r : Role) : Role.ofName? r.name = some r := by
  cases r <;> rfl

@[simp] theorem BlockGroup.ofName?_name (g : BlockGroup) : BlockGroup.ofName? g.name = some g := by
  cases g <;> rfl

/-! ## Records -/

theorem BlockRecord.ofWritten?_toJson (r : BlockRecord) :
    BlockRecord.ofWritten? r.toJson.toWritten = some r := by
  have hrecord := Written.record?_toWritten [("tag", .string r.role.name),
    ("group", .string r.group.name)] (by simp) ["tag", "group"]
  rw [BlockRecord.ofWritten?, BlockRecord.toJson, hrecord]
  simp [Dict.lookup_cons_eq_if, Written.required, Value.toWritten, Written.name?]

theorem BlockRecord.printable_toJson (r : BlockRecord) : r.toJson.Printable :=
  ⟨trivial, trivial, trivial⟩

namespace Statistics

/-- Every number of the statistics is finite. -/
structure IsFinite (s : Statistics Double) : Prop where
  totalEnergy : s.totalEnergy.isFinite = true
  energy : ∀ entry ∈ s.energy.toList, entry.2.isFinite = true
  sparsity : s.sparsity.isFinite = true
  balance : s.balance.isFinite = true

variable {s : Statistics Double}

theorem ofWritten?_toJson (s : Statistics Double) : ofWritten? s.toJson.toWritten = some s := by
  have hrecord := Written.record?_toWritten [
    ("total_energy", .ofDouble s.totalEnergy),
    ("energy_distribution", .ofDict (s.energy.map fun _ => Value.ofDouble)),
    ("block_metadata", .ofDict (s.blocks.map fun _ => BlockRecord.toJson)),
    ("sparsity", .ofDouble s.sparsity),
    ("balance", .ofDouble s.balance)] (by simp)
    ["total_energy", "energy_distribution", "block_metadata", "sparsity", "balance"]
  have henergy : Written.dict? Written.double?
      (Value.ofDict (s.energy.map fun _ => Value.ofDouble)).toWritten = some s.energy :=
    Written.dict?_ofDict fun entry _ => rfl
  have hblocks : Written.dict? BlockRecord.ofWritten?
      (Value.ofDict (s.blocks.map fun _ => BlockRecord.toJson)).toWritten = some s.blocks :=
    Written.dict?_ofDict fun entry _ => entry.2.ofWritten?_toJson
  rw [ofWritten?, toJson, hrecord]
  simp [Dict.lookup_cons_eq_if, Written.required, henergy, hblocks, Value.ofDouble,
    Value.toWritten, Written.double?, Numeral.toDouble]

theorem printable_toJson (hs : s.IsFinite) : s.toJson.Printable := by
  rw [toJson, Value.Printable, Value.fieldsPrintable_iff]
  simp only [List.forall_mem_cons, List.not_mem_nil, false_imp_iff, implies_true, and_true]
  exact ⟨hs.totalEnergy, Value.printable_ofDict hs.energy,
    Value.printable_ofDict fun entry _ => entry.2.printable_toJson, hs.sparsity, hs.balance⟩

/-- **Printed statistics are read back.** -/
theorem ofText?_printed (hs : s.IsFinite) :
    ∀ text ∈ [s.toJson.render, s.toJson.compact], ofText? (String.ofList text) = some s := by
  intro text htext
  rw [ofText?, String.toList_ofList, Value.ofText?_printed (printable_toJson hs) text htext]
  exact s.ofWritten?_toJson

end Statistics

end LoraSchedule
