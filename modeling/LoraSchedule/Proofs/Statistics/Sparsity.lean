import LoraSchedule.Proofs.Statistics.Exact
import Mathlib.Algebra.BigOperators.Ring.List
import Mathlib.Algebra.Order.BigOperators.Group.List
import Mathlib.Algebra.Order.Field.Basic
import Mathlib.Data.List.Sort
import Mathlib.Tactic.Linarith

/-!
# Sparsity is the Gini coefficient

The Gini coefficient of some values is the mean difference between two of them,
in units of twice their mean.  Sparsity is computed in another way: the values
are sorted, and each is weighted by how many more lie below it than above it.
Adding a least value to sorted values shows that both come to the same
(`two_mul_rankSum`): it moves all other values up by one rank, and it lies off
each of them by what they exceed it.

All else is read off the differences: they do not depend on the order, they grow
with the values, they vanish for equal values, and none exceeds the sum of its two
values.
-/

namespace LoraSchedule.Statistics

open LoraSchedule.Number (Scalar)

/-! ## Differences of pairs -/

/-- The differences between the values of all pairs of places. -/
def pairGaps (values : List Rat) : Rat :=
  (values.map fun a => (values.map fun b => |a - b|).sum).sum

theorem pairGaps_cons (a : Rat) (values : List Rat) :
    pairGaps (a :: values) = pairGaps values + 2 * (values.map fun b => |a - b|).sum := by
  have hcolumn : (values.map fun b => |b - a|) = values.map fun b => |a - b| :=
    List.map_congr_left fun b _ => abs_sub_comm b a
  simp only [pairGaps, List.map_cons, List.sum_cons, sub_self, abs_zero, List.sum_map_add, hcolumn]
  ring

theorem pairGaps_of_perm {values reordered : List Rat} (hperm : reordered.Perm values) :
    pairGaps reordered = pairGaps values := by
  have hrow (a : Rat) : (reordered.map fun b => |a - b|).sum = (values.map fun b => |a - b|).sum :=
    (hperm.map _).sum_eq
  rw [pairGaps, pairGaps]
  simp only [hrow]
  exact (hperm.map _).sum_eq

theorem pairGaps_map_mul {c : Rat} (hc : 0 ≤ c) (values : List Rat) :
    pairGaps (values.map (c * ·)) = c * pairGaps values := by
  simp only [pairGaps, List.map_map, Function.comp_def, ← mul_sub, abs_mul, abs_of_nonneg hc,
    List.sum_map_mul_left]

theorem pairGaps_nonneg (values : List Rat) : 0 ≤ pairGaps values := by
  refine List.sum_nonneg (List.forall_mem_map.mpr fun a _ => ?_)
  exact List.sum_nonneg (List.forall_mem_map.mpr fun b _ => abs_nonneg _)

theorem pairGaps_eq_zero_iff {values : List Rat} :
    pairGaps values = 0 ↔ ∀ a ∈ values, ∀ b ∈ values, a = b := by
  have hrow (a : Rat) : 0 ≤ (values.map fun b => |a - b|).sum :=
    List.sum_nonneg (List.forall_mem_map.mpr fun b _ => abs_nonneg _)
  rw [pairGaps, sum_map_eq_zero_iff fun a _ => hrow a]
  refine forall₂_congr fun a _ => ?_
  rw [sum_map_eq_zero_iff fun b _ => abs_nonneg _]
  exact forall₂_congr fun b _ => abs_eq_zero.trans sub_eq_zero

/-- No difference exceeds the sum of its two values, and a value does not differ
from itself. -/
theorem pairGaps_le {values : List Rat} (h : ∀ a ∈ values, 0 ≤ a) :
    pairGaps values ≤ 2 * (values.length - 1) * values.sum := by
  induction values with
  | nil => simp [pairGaps]
  | cons a rest ih =>
      obtain ⟨ha, hrest⟩ := List.forall_mem_cons.mp h
      have hgaps : (rest.map fun b => |a - b|).sum ≤ (rest.map fun b => a + b).sum := by
        refine List.sum_le_sum fun b hb => abs_sub_le_iff.mpr ⟨?_, ?_⟩
        · linarith [hrest b hb]
        · linarith
      have hsum : (rest.map fun b => a + b).sum = rest.length * a + rest.sum := by
        rw [List.sum_map_add]
        simp
      rw [pairGaps_cons, List.length_cons, List.sum_cons]
      push_cast
      linarith [ih hrest]

/-! ## Weights by rank -/

theorem rankWeight_eq (count index : Nat) :
    (rankWeight count index : Rat) = 2 * (index + 1) - count - 1 := by
  rw [rankWeight, scalar_ofNat_eq, scalar_ofNat_eq, scalar_ofNat_eq, scalar_ofNat_eq]
  push_cast
  ring

/-- The sum of values weighted by their ranks, from a first rank on. -/
def rankSum (count first : Nat) (values : List Rat) : Rat :=
  ((values.zipIdx first).map fun value => rankWeight count value.2 * value.1).sum

theorem rankSum_cons (count first : Nat) (a : Rat) (values : List Rat) :
    rankSum count first (a :: values) =
      rankWeight count first * a + rankSum count (first + 1) values := by
  simp [rankSum, List.zipIdx_cons]

/-- With one more value below, each value counts once more. -/
theorem rankSum_succ (count first : Nat) (values : List Rat) :
    rankSum (count + 1) (first + 1) values = rankSum count first values + values.sum := by
  induction values generalizing first with
  | nil => simp [rankSum]
  | cons a rest ih =>
      rw [rankSum_cons, rankSum_cons, ih, List.sum_cons, rankWeight_eq, rankWeight_eq]
      push_cast
      ring

theorem sum_map_sub_const (values : List Rat) (a : Rat) :
    (values.map fun b => b - a).sum = values.sum - values.length * a := by
  induction values with
  | nil => simp
  | cons b rest ih =>
      rw [List.map_cons, List.sum_cons, ih, List.sum_cons, List.length_cons]
      push_cast
      ring

/-- **Weights by rank count differences**: of sorted values, each difference once. -/
theorem two_mul_rankSum {values : List Rat} (h : values.Pairwise (· ≤ ·)) :
    2 * rankSum values.length 0 values = pairGaps values := by
  induction values with
  | nil => simp [rankSum, pairGaps]
  | cons a rest ih =>
      rw [List.pairwise_cons] at h
      have hgaps : (rest.map fun b => |a - b|) = rest.map fun b => b - a :=
        List.map_congr_left fun b hb => by
          rw [abs_sub_comm, abs_of_nonneg (sub_nonneg.mpr (h.1 b hb))]
      rw [List.length_cons, rankSum_cons, rankSum_succ, pairGaps_cons, hgaps, sum_map_sub_const,
        ← ih h.2, rankWeight_eq]
      push_cast
      ring

/-! ## The coefficient -/

/-- The sizes of values, without their signs. -/
def sizes (values : List Rat) : List Rat := values.map (|·|)

@[simp] theorem length_sizes (values : List Rat) : (sizes values).length = values.length :=
  List.length_map _

theorem nonneg_of_mem_sizes {values : List Rat} {a : Rat} (ha : a ∈ sizes values) : 0 ≤ a := by
  obtain ⟨value, -, rfl⟩ := List.mem_map.mp ha
  exact abs_nonneg value

theorem sum_sizes_nonneg (values : List Rat) : 0 ≤ (sizes values).sum :=
  List.sum_nonneg fun _ => nonneg_of_mem_sizes

theorem sizes_map_mul {c : Rat} (hc : 0 ≤ c) (values : List Rat) :
    sizes (values.map (c * ·)) = (sizes values).map (c * ·) := by
  simp [sizes, abs_mul, abs_of_nonneg hc]

/-- The sizes as they are sorted for ranking. -/
def sortedSizes (values : List Rat) : List Rat :=
  (values.map Scalar.abs).mergeSort Scalar.inOrder

theorem sortedSizes_perm (values : List Rat) : (sortedSizes values).Perm (sizes values) := by
  have hsizes : values.map Scalar.abs = sizes values :=
    List.map_congr_left fun value _ => scalar_abs_eq value
  rw [sortedSizes, hsizes]
  exact List.mergeSort_perm _ _

theorem sortedSizes_ascending (values : List Rat) :
    (sortedSizes values).Pairwise (· ≤ ·) :=
  List.pairwise_mergeSort' (· ≤ ·) (values.map Scalar.abs)

theorem gini_eq_ranked (values : List Rat) :
    gini values =
      if values.length < 2 then Scalar.zero
      else if Scalar.atMost (Scalar.sum (sortedSizes values)) Scalar.zero then Scalar.zero
      else rankSum (sortedSizes values).length 0 (sortedSizes values) /
        (Scalar.ofNat (sortedSizes values).length * Scalar.sum (sortedSizes values)) := by
  rw [rankSum, ← scalar_sum_eq]
  rfl

/-- **Sparsity by the differences of pairs.** -/
theorem gini_eq (values : List Rat) :
    gini values =
      if values.length < 2 ∨ (sizes values).sum = 0 then 0
      else pairGaps (sizes values) / (2 * values.length * (sizes values).sum) := by
  have hsum : (sortedSizes values).sum = (sizes values).sum := (sortedSizes_perm values).sum_eq
  have hlength : (sortedSizes values).length = values.length :=
    (sortedSizes_perm values).length_eq.trans (length_sizes values)
  have hranks : 2 * rankSum values.length 0 (sortedSizes values) = pairGaps (sizes values) := by
    rw [← hlength, two_mul_rankSum (sortedSizes_ascending values),
      pairGaps_of_perm (sortedSizes_perm values)]
  rw [gini_eq_ranked, hlength, ← hranks, mul_assoc, mul_div_mul_left _ _ two_ne_zero]
  by_cases hshort : values.length < 2
  · simp [hshort]
  · simp [hshort, hsum, (sum_sizes_nonneg values).ge_iff_eq']

theorem gini_nonneg (values : List Rat) : 0 ≤ gini values := by
  rw [gini_eq]
  split
  · exact le_rfl
  · have hsum := sum_sizes_nonneg values
    exact div_nonneg (pairGaps_nonneg _) (by positivity)

theorem gini_le {values : List Rat} (hlong : 2 ≤ values.length) (htotal : (sizes values).sum ≠ 0) :
    gini values ≤ (values.length - 1) / values.length := by
  have hcount : (0 : Rat) < values.length := by exact_mod_cast (by omega : 0 < values.length)
  have hpos : 0 < (sizes values).sum := (sum_sizes_nonneg values).lt_of_ne' htotal
  have hgaps : pairGaps (sizes values) ≤ 2 * (values.length - 1) * (sizes values).sum := by
    rw [← length_sizes values]
    exact pairGaps_le fun a => nonneg_of_mem_sizes
  rw [gini_eq, if_neg (by simp [htotal]; omega), div_le_div_iff₀ (by positivity) hcount]
  calc
    pairGaps (sizes values) * values.length
      ≤ 2 * (values.length - 1) * (sizes values).sum * values.length :=
        mul_le_mul_of_nonneg_right hgaps hcount.le
    _ = (values.length - 1) * (2 * values.length * (sizes values).sum) := by ring

theorem gini_eq_zero_iff {values : List Rat} :
    gini values = 0 ↔ ∀ a ∈ values, ∀ b ∈ values, |a| = |b| := by
  have hequal : pairGaps (sizes values) = 0 ↔ ∀ a ∈ values, ∀ b ∈ values, |a| = |b| := by
    simp only [pairGaps_eq_zero_iff, sizes, List.forall_mem_map]
  rw [← hequal, gini_eq]
  split
  case isTrue hdegenerate =>
    -- A single value has no other, and sizes that sum up to zero are all zero.
    refine iff_of_true rfl (le_antisymm ?_ (pairGaps_nonneg _))
    refine (pairGaps_le fun a => nonneg_of_mem_sizes).trans ?_
    rcases hdegenerate with hshort | hzero
    · refine mul_nonpos_of_nonpos_of_nonneg ?_ (sum_sizes_nonneg values)
      have hcount : (values.length : Rat) ≤ 1 := by exact_mod_cast Nat.le_of_lt_succ hshort
      rw [length_sizes]
      linarith
    · rw [hzero, mul_zero]
  case isFalse hproper =>
    rw [not_or, not_lt] at hproper
    have hcount : (values.length : Rat) ≠ 0 := by exact_mod_cast (by omega : values.length ≠ 0)
    exact div_eq_zero_iff.trans (or_iff_left (by simp [hcount, hproper.2]))

theorem gini_of_perm_sizes {values others : List Rat} (hperm : (sizes others).Perm (sizes values)) :
    gini others = gini values := by
  have hlength : others.length = values.length := by simpa using hperm.length_eq
  rw [gini_eq, gini_eq, hperm.sum_eq, pairGaps_of_perm hperm, hlength]

theorem gini_map_mul {c : Rat} (hc : 0 < c) (values : List Rat) :
    gini (values.map (c * ·)) = gini values := by
  have hsum : ((sizes values).map (c * ·)).sum = c * (sizes values).sum := by
    simpa using (sizes values).sum_map_mul_left id c
  rw [gini_eq, gini_eq, sizes_map_mul hc.le, pairGaps_map_mul hc.le, hsum, List.length_map,
    mul_left_comm, mul_div_mul_left _ _ hc.ne']
  simp only [mul_eq_zero, hc.ne', false_or]

/-! ## Divisions -/

theorem sortedSizes_guarded (values : List Rat) :
    ((values.map Guarded.number).map Scalar.abs).mergeSort Scalar.inOrder =
      (sortedSizes values).map Guarded.number := by
  have hsizes : (values.map Guarded.number).map Scalar.abs =
      (values.map Scalar.abs).map Guarded.number := by
    rw [List.map_map, List.map_map]
    rfl
  rw [hsizes, sortedSizes]
  exact (List.map_mergeSort (f := Guarded.number) (r := Scalar.inOrder) (s := Scalar.inOrder)
    fun a _ b _ => rfl).symm

theorem rankSum_guarded (count : Nat) (values : List Rat) :
    Scalar.sum ((values.map Guarded.number).zipIdx.map fun value =>
        rankWeight count value.2 * value.1) = Guarded.number (rankSum count 0 values) := by
  rw [rankSum, ← scalar_sum_eq, ← Guarded.sum_map_number, List.zipIdx_map, List.map_map,
    List.map_map]
  rfl

/-- **Sparsity never divides by zero.** -/
theorem gini_guarded (values : List Rat) :
    gini (values.map Guarded.number) = Guarded.number (gini values) := by
  rw [gini_eq_ranked, gini, List.length_map]
  dsimp only
  rw [sortedSizes_guarded, Guarded.sum_map_number, Guarded.zero_eq, Guarded.atMost_number]
  by_cases hshort : values.length < 2
  · rw [if_pos hshort, if_pos hshort]
  rw [if_neg hshort, if_neg hshort]
  by_cases hzero : Scalar.atMost (Scalar.sum (sortedSizes values)) Scalar.zero = true
  · rw [if_pos hzero, if_pos hzero]
  have hlength : (sortedSizes values).length = values.length :=
    (sortedSizes_perm values).length_eq.trans (length_sizes values)
  have hdivisor :
      (Scalar.ofNat (sortedSizes values).length * Scalar.sum (sortedSizes values) : Rat) ≠ 0 := by
    rw [scalar_ofNat_eq, hlength]
    rw [scalar_atMost_iff, scalar_zero_eq, not_le] at hzero
    exact mul_ne_zero (by exact_mod_cast (by omega : values.length ≠ 0)) hzero.ne'
  rw [if_neg hzero, if_neg hzero, rankSum_guarded, List.length_map, Guarded.ofNat_eq,
    Guarded.number_mul, Guarded.number_div _ hdivisor]

/-! ## The rule -/

/-- **Sparsity is the Gini coefficient** of the sizes of the values: the mean
difference of pairs over twice the mean.  So it lies between 0 and `(n - 1) / n`,
is zero just for equal sizes, and depends neither on order nor signs nor scale.
Fewer than two values and values that are all zero have none; then it is 0, and
no division by zero is made. -/
theorem gini_coefficient (values : List Rat) :
    (2 ≤ values.length → (sizes values).sum ≠ 0 →
      gini values = pairGaps (sizes values) / (2 * values.length * (sizes values).sum) ∧
      0 ≤ gini values ∧ gini values ≤ (values.length - 1) / values.length) ∧
    (values.length < 2 ∨ (sizes values).sum = 0 → gini values = 0) ∧
    (gini values = 0 ↔ ∀ a ∈ values, ∀ b ∈ values, |a| = |b|) ∧
    (∀ reordered, reordered.Perm values → gini reordered = gini values) ∧
    (∀ others, sizes others = sizes values → gini others = gini values) ∧
    (∀ c, 0 < c → gini (values.map (c * ·)) = gini values) ∧
    gini (values.map Guarded.number) = Guarded.number (gini values) := by
  refine ⟨fun hlong htotal => ⟨?_, gini_nonneg values, gini_le hlong htotal⟩, fun hdegenerate => ?_,
    gini_eq_zero_iff, fun reordered hperm => gini_of_perm_sizes (hperm.map _),
    fun others hsame => gini_of_perm_sizes (.of_eq hsame), fun c hc => gini_map_mul hc values,
    gini_guarded values⟩
  · rw [gini_eq, if_neg (not_or.mpr ⟨not_lt.mpr hlong, htotal⟩)]
  · rw [gini_eq, if_pos hdegenerate]

/-- Values of either sign, out of order: the differences of the pairs of 0, 1, 2
and 3 come to 20, and their sum is 6. -/
theorem gini_coefficient_mixed_signs :
    gini [(3 : Rat), -1, 0, 2] = 20 / (2 * 4 * 6) ∧ gini [(-1 : Rat), 0, 2, 3] = 5 / 12 ∧
      gini [(3 : Rat), 1, 0, -2] = 5 / 12 ∧ gini ([3, -1, 0, 2].map ((2 : Rat) * ·)) = 5 / 12 := by
  obtain ⟨hproper, -, -, hreordered, hsigns, hscaled, -⟩ := gini_coefficient [3, -1, 0, 2]
  have htotal : (sizes [3, -1, 0, 2]).sum = 6 := by norm_num [sizes]
  have hgaps : pairGaps (sizes [3, -1, 0, 2]) = 20 := by norm_num [pairGaps, sizes]
  have hvalue : gini [(3 : Rat), -1, 0, 2] = 20 / (2 * 4 * 6) := by
    rw [(hproper (by decide) (by rw [htotal]; norm_num)).1, hgaps, htotal]
    rfl
  have hreduced : (20 / (2 * 4 * 6) : Rat) = 5 / 12 := by norm_num
  refine ⟨hvalue, ?_, ?_, ?_⟩
  · rw [hreordered _ (by decide), hvalue, hreduced]
  · rw [hsigns _ (by norm_num [sizes]), hvalue, hreduced]
  · rw [hscaled 2 (by norm_num), hvalue, hreduced]

end LoraSchedule.Statistics
