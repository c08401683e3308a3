import LoraSchedule.Proofs.Statistics.Exact
import Mathlib.Algebra.BigOperators.Ring.List
import Mathlib.Algebra.Order.BigOperators.Group.List

/-!
# Weighted energy

Shares and balance count the energy of each block with a weight.  Such a sum is
linear in the weights and in the energies; where no energy is negative it grows
with the weights, and vanishes just if no energy has a weight.
-/

namespace LoraSchedule.Statistics

variable {energy : Dict Rat} {weight other : String → Rat}

/-! ## Linearity -/

theorem weightedEnergy_congr (h : ∀ id ∈ energy.keys, weight id = other id) :
    weightedEnergy weight energy = weightedEnergy other energy := by
  refine congrArg List.sum (List.map_congr_left fun entry hentry => ?_)
  rw [h entry.1 (List.mem_map_of_mem hentry)]

theorem weightedEnergy_add (weight other : String → Rat) (energy : Dict Rat) :
    weightedEnergy (fun id => weight id + other id) energy =
      weightedEnergy weight energy + weightedEnergy other energy := by
  simp only [weightedEnergy, mul_add, List.sum_map_add]

theorem weightedEnergy_mul_const (weight : String → Rat) (k : Rat) (energy : Dict Rat) :
    weightedEnergy (fun id => weight id * k) energy = weightedEnergy weight energy * k := by
  simp only [weightedEnergy, ← mul_assoc, List.sum_map_mul_right]

theorem weightedEnergy_const (k : Rat) (energy : Dict Rat) :
    weightedEnergy (fun _ => k) energy = energy.values.sum * k := by
  rw [← weightedEnergy_one, ← weightedEnergy_mul_const]
  simp only [one_mul]

/-- The energies multiplied by a factor. -/
def scaled (c : Rat) (energy : Dict Rat) : Dict Rat := energy.map fun _ value => c * value

@[simp] theorem keys_scaled (c : Rat) (energy : Dict Rat) : (scaled c energy).keys = energy.keys :=
  Dict.keys_map _ _

@[simp] theorem size_scaled (c : Rat) (energy : Dict Rat) : (scaled c energy).size = energy.size :=
  List.length_map _

theorem values_scaled (c : Rat) (energy : Dict Rat) :
    (scaled c energy).values = energy.values.map (c * ·) := by
  simp [scaled, Dict.values, Dict.map]

theorem weightedEnergy_scaled (weight : String → Rat) (c : Rat) (energy : Dict Rat) :
    weightedEnergy weight (scaled c energy) = c * weightedEnergy weight energy := by
  rw [weightedEnergy, weightedEnergy, ← List.sum_map_mul_left]
  simp [scaled, Dict.map, mul_assoc, Function.comp_def]

theorem sum_values_scaled (c : Rat) (energy : Dict Rat) :
    (scaled c energy).values.sum = c * energy.values.sum := by
  rw [← weightedEnergy_one, weightedEnergy_scaled, weightedEnergy_one]

/-! ## Order -/

section Nonneg

variable (henergy : ∀ value ∈ energy.values, 0 ≤ value)

include henergy

theorem weightedEnergy_nonneg (hweight : ∀ id ∈ energy.keys, 0 ≤ weight id) :
    0 ≤ weightedEnergy weight energy := by
  refine List.sum_nonneg (List.forall_mem_map.mpr fun entry hentry => ?_)
  exact mul_nonneg (henergy _ (List.mem_map_of_mem hentry)) (hweight _ (List.mem_map_of_mem hentry))

theorem weightedEnergy_le (hweight : ∀ id ∈ energy.keys, weight id ≤ other id) :
    weightedEnergy weight energy ≤ weightedEnergy other energy := by
  refine List.sum_le_sum fun entry hentry => ?_
  exact mul_le_mul_of_nonneg_left (hweight _ (List.mem_map_of_mem hentry))
    (henergy _ (List.mem_map_of_mem hentry))

theorem weightedEnergy_eq_zero_iff (hweight : ∀ id ∈ energy.keys, 0 ≤ weight id) :
    weightedEnergy weight energy = 0 ↔
      ∀ id ∈ energy.keys, energy.get? id = some 0 ∨ weight id = 0 := by
  have hterms (entry : String × Rat) (hentry : entry ∈ energy.toList) :
      0 ≤ entry.2 * weight entry.1 :=
    mul_nonneg (henergy _ (List.mem_map_of_mem hentry)) (hweight _ (List.mem_map_of_mem hentry))
  rw [weightedEnergy, sum_map_eq_zero_iff hterms, Dict.keys, List.forall_mem_map]
  refine forall₂_congr fun entry hentry => ?_
  rw [mul_eq_zero, Dict.mem_toList_iff.mp hentry, Option.some_inj]

end Nonneg

end LoraSchedule.Statistics
