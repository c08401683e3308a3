import LoraSchedule.Proofs.Number.Shares
import Mathlib.Data.Nat.Log

/-!
# Exact values

Finite numbers are ordered as their exact values are (`less_iff`, `atMost_iff`).
A sum is nearest to the sum of the exact values of its terms
(`isNearest_add`), and what is nearest to a value lies on the same side of every
number as the value does (`IsNearest.le`, `IsNearest.ge`).  So bounds on the
exact values are bounds on what is rounded.
-/

namespace LoraSchedule.Number.Binary

variable {F : Format} {x y z : Binary F}

/-! ## Order -/

theorem natAbs_toUnits (x : Binary F) : x.toUnits.natAbs = F.units x.magnitude := by
  unfold toUnits
  split <;> simp

theorem toUnits_neg (x : Binary F) : (neg x).toUnits = -x.toUnits := by
  unfold toUnits neg
  cases x.negative <;> simp

/-- The words below the sign are ordered as the values they stand for. -/
theorem rank_lt_rank_iff : x.rank < y.rank ↔ x.toUnits < y.toUnits := by
  have hlt := F.units_strictMono.lt_iff_lt (a := x.magnitude) (b := y.magnitude)
  have hgt := F.units_strictMono.lt_iff_lt (a := y.magnitude) (b := x.magnitude)
  have hx : 0 < F.units x.magnitude ↔ 0 < x.magnitude := units_pos_iff
  have hy : 0 < F.units y.magnitude ↔ 0 < y.magnitude := units_pos_iff
  unfold rank toUnits
  split_ifs <;> omega

theorem isZero_iff : x.isZero = true ↔ x.toUnits = 0 := by
  have hunits := x.natAbs_toUnits
  have hpos : 0 < F.units x.magnitude ↔ 0 < x.magnitude := units_pos_iff
  rw [isZero, decide_eq_true_eq]
  omega

/-- Only the zeros have a value in common. -/
theorem eq_of_toUnits_eq (h : x.toUnits = y.toUnits) (hpos : 0 < y.magnitude) : x = y := by
  have hy : 0 < F.units y.magnitude := units_pos_iff.mpr hpos
  have hmagnitude : x.magnitude = y.magnitude := by
    apply F.units_strictMono.injective
    rw [← natAbs_toUnits, ← natAbs_toUnits, h]
  obtain ⟨negative, magnitude⟩ := x
  obtain ⟨negative', magnitude'⟩ := y
  obtain rfl : magnitude = magnitude' := hmagnitude
  simp only [toUnits] at h hy
  cases negative <;> cases negative' <;> simp at h ⊢ <;> omega

theorem less_iff (hx : x.isFinite = true) (hy : y.isFinite = true) :
    x.less y = true ↔ x.toUnits < y.toUnits := by
  rw [← rank_lt_rank_iff]
  simp [less, isNaN_of_isFinite hx, isNaN_of_isFinite hy]

theorem atMost_iff (hx : x.isFinite = true) (hy : y.isFinite = true) :
    x.atMost y = true ↔ x.toUnits ≤ y.toUnits := by
  rw [← not_lt, ← rank_lt_rank_iff, not_lt]
  simp [atMost, isNaN_of_isFinite hx, isNaN_of_isFinite hy]

/-- A number that is no larger than another comes no later in the total order, unless
the two are zeros. -/
theorem totalRank_le_of_toUnits_le (h : x.toUnits ≤ y.toUnits)
    (hpos : 0 < x.magnitude ∨ 0 < y.magnitude) : x.totalRank ≤ y.totalRank := by
  rcases h.lt_or_eq with hlt | heq
  · have hrank := rank_lt_rank_iff.mpr hlt
    unfold rank at hrank
    unfold totalRank
    split_ifs at hrank ⊢ <;> omega
  · rcases hpos with hx | hy
    · rw [eq_of_toUnits_eq heq.symm hx]
    · rw [eq_of_toUnits_eq heq hy]

/-- What lies between finite numbers is finite. -/
theorem isFinite_of_atMost (hx : x.isFinite = true) (hz : z.isFinite = true)
    (hxy : x.atMost y = true) (hyz : y.atMost z = true) : y.isFinite = true := by
  simp only [atMost, Bool.and_eq_true, decide_eq_true_eq] at hxy hyz
  simp only [isFinite, decide_eq_true_eq] at hx hz ⊢
  have hlow := hxy.2
  have hhigh := hyz.2
  unfold rank at hlow hhigh
  split_ifs at hlow hhigh <;> omega

/-- What comes no later in the total order is no larger. -/
theorem atMost_of_totalRank_le (hx : x.isNaN = false) (hy : y.isNaN = false)
    (h : x.totalRank ≤ y.totalRank) : x.atMost y = true := by
  have hrank : x.rank ≤ y.rank := by
    unfold totalRank at h
    unfold rank
    split_ifs at h ⊢ <;> omega
  simp [atMost, hx, hy, hrank]

/-- Between a positive number and a value just above it there is no other number. -/
theorem less_iff_of_succ {r : Binary F} {value : Int} (hx : x.isFinite = true)
    (hr : r.isFinite = true) (hsign : r.negative = false) (hpos : 0 < r.magnitude)
    (hbelow : r.toUnits < value) (habove : value ≤ F.units (r.magnitude + 1)) :
    x.less r = true ↔ x.toUnits < value ∧ x ≠ r := by
  rw [less_iff hx hr]
  constructor
  · intro hlt
    refine ⟨hlt.trans hbelow, ?_⟩
    rintro rfl
    exact lt_irrefl _ hlt
  · rintro ⟨hvalue, hne⟩
    by_contra hge
    have hrank := mt rank_lt_rank_iff.mp hge
    have hstart := toUnits_of_nonneg hsign
    -- from `r` on, only `r` itself has a magnitude that is low enough
    have hle : x.magnitude ≤ r.magnitude := by
      apply Nat.lt_succ_iff.mp
      apply F.units_strictMono.lt_iff_lt.mp
      have hunits := x.natAbs_toUnits
      rw [Nat.succ_eq_add_one]
      omega
    obtain ⟨negative, magnitude⟩ := x
    obtain ⟨negative', magnitude'⟩ := r
    obtain rfl : negative' = false := hsign
    cases negative with
    | false =>
        simp only [rank, Bool.false_eq_true, if_false] at hrank hle
        exact hne (congrArg _ (by omega))
    | true =>
        simp only [rank, Bool.false_eq_true, if_false, if_true] at hrank hpos
        omega

/-! ## Nearest numbers -/

/-- A finite number than which no finite number is nearer to a value. -/
structure IsNearest (x : Binary F) (value : Int) : Prop where
  finite : x.isFinite = true
  dist_le : ∀ z : Binary F, z.isFinite = true →
    (x.toUnits - value).natAbs ≤ (z.toUnits - value).natAbs

namespace IsNearest

variable {value : Int}

/-- What is nearest to a value does not pass a number that the value does not pass. -/
theorem le (h : IsNearest x value) (hz : z.isFinite = true) (hvalue : value ≤ z.toUnits) :
    x.toUnits ≤ z.toUnits := by
  have hdist := h.dist_le z hz
  omega

theorem ge (h : IsNearest x value) (hz : z.isFinite = true) (hvalue : z.toUnits ≤ value) :
    z.toUnits ≤ x.toUnits := by
  have hdist := h.dist_le z hz
  omega

end IsNearest

/-- A value within those of a finite number and its negative is not rounded to infinity. -/
theorem nearest_lt_infinity {value : Int} (hz : z.isFinite = true)
    (hle : value.natAbs ≤ z.toUnits.natAbs) : F.nearest value.natAbs 1 < F.infinity :=
  (F.nearest_mono Nat.one_pos hle).trans_lt
    (z.nearest_natAbs_toUnits.trans_lt (of_decide_eq_true hz))

section Rounded

variable {value : Int} (h : F.nearest value.natAbs 1 < F.infinity)

include h

/-- The rounded value is as far from the value as it is without the sign, which both share. -/
theorem natAbs_ofUnits_sub :
    ((ofUnits (value < 0) value.natAbs 1 : Binary F).toUnits - value).natAbs =
      Nat.dist (F.units (F.nearest value.natAbs 1)) value.natAbs := by
  have hmagnitude : (ofUnits (value < 0) value.natAbs 1 : Binary F).magnitude =
      F.nearest value.natAbs 1 := min_eq_left h.le
  rw [Nat.dist]
  by_cases hvalue : value < 0
  · rw [toUnits_of_negative (decide_eq_true hvalue), hmagnitude]
    omega
  · rw [toUnits_of_nonneg (decide_eq_false hvalue), hmagnitude]
    omega

/-- A value is rounded to a number nearest to it, unless that is infinite. -/
theorem isNearest_ofUnits : IsNearest (ofUnits (value < 0) value.natAbs 1 : Binary F) value where
  finite := decide_eq_true ((min_eq_left h.le).trans_lt h)
  dist_le := by
    intro z _
    have hnearest := F.nearest_dist_le value.natAbs z.magnitude Nat.one_pos
    have hz := z.natAbs_toUnits
    rw [natAbs_ofUnits_sub h]
    simp only [Nat.mul_one, Nat.dist] at hnearest ⊢
    omega

/-- What is nearest to a value is no further away than half a step. -/
theorem IsNearest.two_mul_dist_le (hx : IsNearest x value) :
    2 * (x.toUnits - value).natAbs ≤ 2 ^ F.scaleOf value.natAbs 1 := by
  have hrounded := hx.dist_le _ (isNearest_ofUnits h).finite
  have hstep := (divideToEven_spec value.natAbs
    (Nat.mul_pos Nat.one_pos (Nat.two_pow_pos (F.scaleOf value.natAbs 1)))).1
  rw [natAbs_ofUnits_sub h, F.units_nearest value.natAbs Nat.one_pos] at hrounded
  rw [Nat.one_mul] at hrounded hstep
  omega

end Rounded

/-- Smaller values are rounded at a scale that is no larger. -/
theorem scaleOf_mono : Monotone fun num => F.scaleOf num 1 := by
  intro m n h
  simp only [Format.scaleOf, Nat.div_one, Nat.log2_eq_log_two]
  exact Nat.sub_le_sub_right (Nat.log_mono_right h) _

section Sums

variable (hx : x.isFinite = true) (hy : y.isFinite = true)

include hx hy

/-- **A sum that stays in the range is nearest to the exact sum.** -/
theorem isNearest_add (h : (x + y).isFinite = true) :
    IsNearest (x + y) (x.toUnits + y.toUnits) := by
  by_cases hzero : x.toUnits + y.toUnits = 0
  · refine ⟨h, fun z _ => ?_⟩
    have hself : (x + y).toUnits = 0 := by
      have hunits : F.units 0 = 0 := by simp [Format.units]
      rw [add_eq_zero hx hy hzero, toUnits, zero, hunits]
      simp
    omega
  · rw [add_eq_ofUnits hx hy hzero]
    exact isNearest_ofUnits ((isFinite_add_iff hx hy).mp h)

/-- A sum between two finite numbers stays in the range, so it is nearest to the exact sum. -/
theorem isNearest_add_of_le {low high : Binary F} (hlow : low.isFinite = true)
    (hhigh : high.isFinite = true) (hle : low.toUnits ≤ x.toUnits + y.toUnits)
    (hge : x.toUnits + y.toUnits ≤ high.toUnits) : IsNearest (x + y) (x.toUnits + y.toUnits) := by
  have hlarge : (x.toUnits + y.toUnits).natAbs ≤ low.toUnits.natAbs ∨
      (x.toUnits + y.toUnits).natAbs ≤ high.toUnits.natAbs := by
    omega
  apply isNearest_add hx hy
  apply (isFinite_add_iff hx hy).mpr
  exact hlarge.elim (nearest_lt_infinity hlow) (nearest_lt_infinity hhigh)

theorem isNearest_sub_of_le {low high : Binary F} (hlow : low.isFinite = true)
    (hhigh : high.isFinite = true) (hle : low.toUnits ≤ x.toUnits - y.toUnits)
    (hge : x.toUnits - y.toUnits ≤ high.toUnits) : IsNearest (x - y) (x.toUnits - y.toUnits) := by
  rw [Int.sub_eq_add_neg, ← toUnits_neg] at hle hge ⊢
  exact isNearest_add_of_le hx (isFinite_neg hy) hlow hhigh hle hge

end Sums

end LoraSchedule.Number.Binary
