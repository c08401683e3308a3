import LoraSchedule.Architecture.Basic
import LoraSchedule.Statistics.Basic

/-!
# Lineages of SDXL

Files of plain SDXL are told apart by where their energy lies.
-/

namespace LoraSchedule.Statistics

open LoraSchedule.Number (Scalar)

variable {α : Type} [Scalar α]

/-- A number of hundredths. -/
def hundredths (n : Nat) : α := Scalar.ofDecimal n 2

/-- The lineage that the statistics of an SDXL file suggest. -/
def lineage (s : Statistics α) : Architecture :=
  let above (value : α) (limit : Nat) : Bool := Scalar.less (hundredths limit) value
  let below (value : α) (limit : Nat) : Bool := Scalar.less value (hundredths limit)
  if above s.outputShare 55 && above s.sparsity 18 then .pony
  else if above s.middleShare 40 then .noobai
  else if above (s.inputShare + s.middleShare) 55 && below s.sparsity 15 then .illustrious
  else if below (Scalar.abs s.balance) 20 && below s.sparsity 12 then .realism
  else .sdxl

end LoraSchedule.Statistics
