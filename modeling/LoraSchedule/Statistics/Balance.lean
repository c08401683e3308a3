import LoraSchedule.Block.Pattern
import LoraSchedule.Statistics.Basic
import LoraSchedule.Text.Lowercase

/-!
# Balance

The blocks of a file are put in their canonical order, from early to late, and spread evenly from
-1 to 1; the balance is the mean of their positions, weighted by their energies.
-/

namespace LoraSchedule.Statistics

open LoraSchedule.Number (Scalar)
open LoraSchedule.Text LoraSchedule.Block

/-! ## The canonical order of blocks -/

/-- The words that block ids start with, from early to late. -/
def blockOrder : List String :=
  ["clip", "input", "down", "double", "middle", "mid", "joint", "layers", "single", "up", "output",
    "specialized"]

/-- The place of a block id in the order by the word it starts with; other words come last. -/
def idRank (id : String) : Nat :=
  let head := lowercase (idHead id)
  (blockOrder.findIdx? fun word => word.toList = head).getD 99

/-- The first number in a block id; 0 where there is none, or none in range. -/
def idNumber (id : String) : Nat := ((firstDigits? id.toList) >>= wordValue?).getD 0

/-- Whether a block id comes before another: by rank, then by number, then as text. -/
def idBefore (a b : String) : Bool :=
  if idRank a = idRank b then
    if idNumber a = idNumber b then a < b else idNumber a < idNumber b
  else idRank a < idRank b

/-- Block ids in canonical order. -/
def canonicalOrder (ids : List String) : List String := ids.mergeSort fun a b => !idBefore b a

/-! ## Positions -/

variable {α : Type} [Scalar α]

/-- The position of the block at an index among `count` blocks. -/
def position (count index : Nat) : α :=
  (Scalar.ofNat index / Scalar.ofNat (count - 1)) * Scalar.ofNat 2 - Scalar.ofNat 1

/-- The balance of the energies of blocks; zero for fewer than two blocks and where the total is
zero. -/
def balanceOf (energy : Dict α) : α :=
  let count := energy.size
  let total := Scalar.sum energy.values
  if count < 2 then Scalar.zero
  else if Scalar.atMost total Scalar.zero && Scalar.atMost Scalar.zero total then Scalar.zero
  else
    let weighted := (canonicalOrder energy.keys).zipIdx.map fun id =>
      ((energy.get? id.1).getD Scalar.zero) * position count id.2
    Scalar.sum weighted / total

end LoraSchedule.Statistics
