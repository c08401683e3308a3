import LoraSchedule.Block.Role
import LoraSchedule.Dict
import LoraSchedule.Number.Scalar
import LoraSchedule.Text.Basic

/-!
# Weight statistics

The statistics of a file say how much energy, the sum of tensor norms, each of its blocks holds,
and sum this up in two numbers: the sparsity is the Gini coefficient of the energies, the balance
their position between the earliest and the latest blocks.
-/

namespace LoraSchedule

open LoraSchedule.Number (Scalar)

/-- What is recorded about a block. -/
structure BlockRecord where
  role : Role
  group : BlockGroup
deriving DecidableEq

/-- The statistics of a file, in numbers of type `α`. -/
structure Statistics (α : Type) where
  totalEnergy : α
  /-- The energy of each block, by its id. -/
  energy : Dict α
  blocks : Dict BlockRecord
  sparsity : α
  balance : α

namespace Statistics

variable {α : Type} [Scalar α]

/-- The statistics of a file without tensors. -/
def empty : Statistics α := ⟨Scalar.zero, ∅, ∅, Scalar.zero, Scalar.zero⟩

instance : Inhabited (Statistics α) := ⟨empty⟩

/-- The ids of the blocks. -/
def blockIds (s : Statistics α) : List String := s.energy.keys

def blockCount (s : Statistics α) : Nat := s.energy.size

/-- The energy of all blocks together. -/
def distributedEnergy (s : Statistics α) : α := Scalar.sum s.energy.values

/-- The part of a block id before its first underscore. -/
def idHead (id : String) : List Char := id.toList.takeWhile (· ≠ '_')

/-- Whether the id of a block starts with one of several words, in letters of either case. -/
def isInRegion (words : List String) (id : String) : Bool :=
  words.any fun word => Text.equalIgnoringCase (idHead id) word.toList

/-- The fraction of the energy that is held by the blocks of a region; zero if there is no
energy. -/
def regionShare (s : Statistics α) (words : List String) : α :=
  let total := s.distributedEnergy
  if Scalar.atMost total Scalar.zero then Scalar.zero
  else Scalar.sum (s.energy.filter fun id _ => isInRegion words id).values / total

def inputShare (s : Statistics α) : α := s.regionShare ["input"]

def middleShare (s : Statistics α) : α := s.regionShare ["middle", "mid"]

def outputShare (s : Statistics α) : α := s.regionShare ["output"]

/-- The recorded role of a block. -/
def roleOf (s : Statistics α) (id : String) : Role :=
  ((s.blocks.get? id).map BlockRecord.role).getD .other

/-- The energy of each role that some block has, in the order of roles. -/
def energyByRole (s : Statistics α) : List (Role × α) :=
  Role.all.filterMap fun role =>
    match s.energy.toList.filter fun entry => s.roleOf entry.1 = role with
    | [] => none
    | entries => some (role, entries.foldl (fun sum entry => sum + entry.2) Scalar.zero)

end Statistics

end LoraSchedule
