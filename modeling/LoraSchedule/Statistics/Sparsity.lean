import LoraSchedule.Number.Scalar

/-!
# Sparsity

The Gini coefficient of a list of values, by the closed form for sorted values: each value is
weighted by how many more values lie below it than above it.
-/

namespace LoraSchedule.Statistics

open LoraSchedule.Number (Scalar)

variable {α : Type} [Scalar α]

/-- How many more of `count` sorted values lie below the one at an index than above it. -/
def rankWeight (count index : Nat) : α :=
  Scalar.ofNat 2 * Scalar.ofNat (index + 1) - Scalar.ofNat count - Scalar.ofNat 1

/-- The Gini coefficient of the absolute values; zero for fewer than two values and where all are
zero. -/
def gini (values : List α) : α :=
  if values.length < 2 then Scalar.zero
  else
    let sorted := (values.map Scalar.abs).mergeSort Scalar.inOrder
    let total := Scalar.sum sorted
    if Scalar.atMost total Scalar.zero then Scalar.zero
    else
      let count := sorted.length
      let weighted := sorted.zipIdx.map fun value => rankWeight count value.2 * value.1
      Scalar.sum weighted / (Scalar.ofNat count * total)

end LoraSchedule.Statistics
