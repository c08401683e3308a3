import LoraSchedule.Proofs.Number.Nearest

/-!
# Sums and the order of numbers

A sum is rounded, but rounding does not decrease and keeps what it can
represent.  So a sum with a number that is not negative lies no lower than the
other term (`totalRank_le_add`), and a difference no higher
(`totalRank_sub_le`), in the total order that points are sorted by.

Comparing with a number that is not negative is the same in the total order as
in the order of numbers (`less_iff_of_nonneg`).
-/

namespace LoraSchedule.Number.Binary

variable {F : Format} {x y z : Binary F}

/-! ## Kinds and order -/

/-- The three kinds of numbers. -/
theorem kind_cases (x : Binary F) : x.isNaN = true ∨ x.isInfinite = true ∨ x.isFinite = true := by
  simp only [isNaN, isInfinite, isFinite, decide_eq_true_eq]
  omega

theorem isNaN_of_isFinite (hx : x.isFinite = true) : x.isNaN = false := by
  have hlt : x.magnitude < F.infinity := by simpa [isFinite] using hx
  exact decide_eq_false hlt.not_gt

theorem isInfinite_of_isFinite (hx : x.isFinite = true) : x.isInfinite = false := by
  have hlt : x.magnitude < F.infinity := by simpa [isFinite] using hx
  exact decide_eq_false hlt.ne

/-- What lies between finite numbers is finite. -/
theorem isFinite_of_between (hx : x.isFinite = true) (hz : z.isFinite = true)
    (hxy : x.totalRank ≤ y.totalRank) (hyz : y.totalRank ≤ z.totalRank) : y.isFinite = true := by
  simp only [isFinite, totalRank, decide_eq_true_eq] at *
  split_ifs at hxy hyz <;> omega

theorem totalAtMost_trans (hxy : x.totalAtMost y = true) (hyz : y.totalAtMost z = true) :
    x.totalAtMost z = true :=
  decide_eq_true ((of_decide_eq_true hxy).trans (of_decide_eq_true hyz))

theorem totalAtMost_total (x y : Binary F) : (x.totalAtMost y || y.totalAtMost x) = true := by
  simp only [totalAtMost, Bool.or_eq_true, decide_eq_true_eq]
  exact le_total _ _

/-- Natural numbers of sixty-four bits are far from the end of the range. -/
theorem isFinite_ofNat {n : Nat} (h : n ≤ 2 ^ 64) : (ofNat n : Double).isFinite = true := by
  have htop : Format.double.nearest (2 ^ 64 * Format.double.unitsPerOne) 1 <
      Format.double.infinity := by
    decide +kernel
  have hle : Format.double.nearest (n * Format.double.unitsPerOne) 1 ≤
      Format.double.nearest (2 ^ 64 * Format.double.unitsPerOne) 1 :=
    Format.double.nearest_mono Nat.one_pos (Nat.mul_le_mul_right _ h)
  have hfinite : min (Format.double.nearest (n * Format.double.unitsPerOne) 1)
      Format.double.infinity < Format.double.infinity :=
    (min_le_left _ _).trans_lt (hle.trans_lt htop)
  exact decide_eq_true hfinite

/-- A number is above one that is not negative just if it comes after it. -/
theorem less_iff_of_nonneg (hy : y.negative = false) (hynan : y.isNaN = false)
    (hxnan : x.isNaN = false) : y.less x = true ↔ y.totalRank < x.totalRank := by
  simp only [less, hxnan, hynan, rank, totalRank, hy]
  cases x.negative
  · simp
  · simp
    omega

/-- A number is below a positive one just if it comes before it. -/
theorem less_iff_of_pos (hy : y.negative = false) (hpos : 0 < y.magnitude)
    (hynan : y.isNaN = false) (hxnan : x.isNaN = false) :
    x.less y = true ↔ x.totalRank < y.totalRank := by
  simp only [less, hxnan, hynan, rank, totalRank, hy]
  cases x.negative
  · simp
  · simp
    omega

/-! ## Values -/

theorem units_pos_iff {m : Nat} : 0 < F.units m ↔ 0 < m := by
  have hzero : F.units 0 = 0 := by simp [Format.units]
  rw [← hzero, F.units_strictMono.lt_iff_lt, hzero]

theorem toUnits_of_nonneg (hx : x.negative = false) : x.toUnits = F.units x.magnitude := by
  simp [toUnits, hx]

theorem toUnits_of_negative (hx : x.negative = true) : x.toUnits = -F.units x.magnitude := by
  simp [toUnits, hx]

/-- Rounding a value up to that of a magnitude gives at most this magnitude. -/
theorem magnitude_ofUnits_le {negative : Bool} {units m : Nat} (h : units ≤ F.units m) :
    (ofUnits negative units 1 : Binary F).magnitude ≤ m := by
  have hle : F.nearest units 1 ≤ F.nearest (F.units m) 1 := F.nearest_mono Nat.one_pos h
  have hself : F.nearest (F.units m) 1 = m := by simpa using F.nearest_units m Nat.one_pos
  exact (min_le_left _ _).trans (hle.trans hself.le)

/-- Rounding a value from that of a finite number on gives at least the magnitude
of this number. -/
theorem le_magnitude_ofUnits (hx : x.isFinite = true) {negative : Bool} {units : Nat}
    (h : F.units x.magnitude ≤ units) :
    x.magnitude ≤ (ofUnits negative units 1 : Binary F).magnitude := by
  have hfinite : x.magnitude < F.infinity := by simpa [isFinite] using hx
  have hle : F.nearest (F.units x.magnitude) 1 ≤ F.nearest units 1 :=
    F.nearest_mono Nat.one_pos h
  have hself : F.nearest (F.units x.magnitude) 1 = x.magnitude := by
    simpa using F.nearest_units x.magnitude Nat.one_pos
  exact le_min (hself.symm.le.trans hle) hfinite.le

/-! ## Sums -/

section Sums

variable (hx : x.isFinite = true) (hy : y.isFinite = true)

include hx hy

theorem add_eq_zero (h : x.toUnits + y.toUnits = 0) : x + y = zero (x.negative && y.negative) := by
  show add x y = _
  simp [add, isNaN_of_isFinite, isInfinite_of_isFinite, hx, hy, h]

theorem add_eq_ofUnits (h : x.toUnits + y.toUnits ≠ 0) :
    x + y = ofUnits (x.toUnits + y.toUnits < 0) (x.toUnits + y.toUnits).natAbs 1 := by
  show add x y = _
  simp [add, isNaN_of_isFinite, isInfinite_of_isFinite, hx, hy, h]

theorem isNaN_add : (x + y).isNaN = false := by
  by_cases hzero : x.toUnits + y.toUnits = 0
  · rw [add_eq_zero hx hy hzero]
    exact decide_eq_false (Nat.not_lt_zero _)
  · rw [add_eq_ofUnits hx hy hzero]
    exact decide_eq_false (min_le_right _ _).not_gt

theorem totalRank_add_of_pos (h : 0 < x.toUnits + y.toUnits) :
    (x + y).totalRank =
      (ofUnits false (x.toUnits + y.toUnits).natAbs 1 : Binary F).magnitude := by
  rw [add_eq_ofUnits hx hy h.ne', decide_eq_false h.not_gt]
  rfl

theorem totalRank_add_of_neg (h : x.toUnits + y.toUnits < 0) :
    (x + y).totalRank =
      -(ofUnits true (x.toUnits + y.toUnits).natAbs 1 : Binary F).magnitude - 1 := by
  rw [add_eq_ofUnits hx hy h.ne, decide_eq_true h]
  rfl

/-- **Adding a number that is not negative does not go down.** -/
theorem totalRank_le_add (hnonneg : y.negative = false) : x.totalRank ≤ (x + y).totalRank := by
  have hunits := toUnits_of_nonneg hnonneg
  rcases lt_trichotomy (x.toUnits + y.toUnits) 0 with hneg | hzero | hpos
  · rw [totalRank_add_of_neg hx hy hneg]
    cases hsign : x.negative with
    | false =>
        rw [toUnits_of_nonneg hsign] at hneg
        omega
    | true =>
        rw [toUnits_of_negative hsign] at hneg ⊢
        have hle : (ofUnits true (-(F.units x.magnitude : Int) + y.toUnits).natAbs 1 :
            Binary F).magnitude ≤ x.magnitude := magnitude_ofUnits_le (by omega)
        simp only [totalRank, hsign, if_true]
        omega
  · have hrank : (x + y).totalRank = 0 := by
      rw [add_eq_zero hx hy hzero, hnonneg, Bool.and_false]
      rfl
    rw [hrank]
    cases hsign : x.negative with
    | false =>
        rw [toUnits_of_nonneg hsign] at hzero
        have hmagnitude : 0 < x.magnitude → 0 < F.units x.magnitude := units_pos_iff.mpr
        simp only [totalRank, hsign, Bool.false_eq_true, if_false]
        omega
    | true =>
        simp only [totalRank, hsign, if_true]
        omega
  · rw [totalRank_add_of_pos hx hy hpos]
    cases hsign : x.negative with
    | false =>
        rw [toUnits_of_nonneg hsign] at hpos ⊢
        have hle : x.magnitude ≤ (ofUnits false ((F.units x.magnitude : Int) + y.toUnits).natAbs 1 :
            Binary F).magnitude := le_magnitude_ofUnits hx (by omega)
        simp only [totalRank, hsign, Bool.false_eq_true, if_false]
        omega
    | true =>
        simp only [totalRank, hsign, if_true]
        omega

/-- **Adding a number that is not positive does not go up.** -/
theorem totalRank_add_le (hnegative : y.negative = true) : (x + y).totalRank ≤ x.totalRank := by
  have hunits := toUnits_of_negative hnegative
  rcases lt_trichotomy (x.toUnits + y.toUnits) 0 with hneg | hzero | hpos
  · rw [totalRank_add_of_neg hx hy hneg]
    cases hsign : x.negative with
    | false =>
        simp only [totalRank, hsign, Bool.false_eq_true, if_false]
        omega
    | true =>
        rw [toUnits_of_negative hsign] at hneg ⊢
        have hle : x.magnitude ≤ (ofUnits true (-(F.units x.magnitude : Int) + y.toUnits).natAbs 1 :
            Binary F).magnitude := le_magnitude_ofUnits hx (by omega)
        simp only [totalRank, hsign, if_true]
        omega
  · rw [add_eq_zero hx hy hzero, hnegative, Bool.and_true]
    cases hsign : x.negative with
    | false => simp [totalRank, zero, hsign]
    | true =>
        rw [toUnits_of_negative hsign] at hzero
        have hmagnitude : 0 < x.magnitude → 0 < F.units x.magnitude := units_pos_iff.mpr
        simp only [totalRank, zero, hsign, if_true]
        omega
  · rw [totalRank_add_of_pos hx hy hpos]
    cases hsign : x.negative with
    | false =>
        rw [toUnits_of_nonneg hsign] at hpos ⊢
        have hle : (ofUnits false ((F.units x.magnitude : Int) + y.toUnits).natAbs 1 :
            Binary F).magnitude ≤ x.magnitude := magnitude_ofUnits_le (by omega)
        simp only [totalRank, hsign, Bool.false_eq_true, if_false]
        omega
    | true =>
        rw [toUnits_of_negative hsign] at hpos
        omega

end Sums

theorem isFinite_neg (hy : y.isFinite = true) : (neg y).isFinite = true := hy

/-- **Subtracting a number that is not negative does not go up.** -/
theorem totalRank_sub_le (hx : x.isFinite = true) (hy : y.isFinite = true)
    (hnonneg : y.negative = false) : (x - y).totalRank ≤ x.totalRank :=
  totalRank_add_le hx (isFinite_neg hy) (by simp [neg, hnonneg])

/-- The difference to a smaller number is not negative. -/
theorem totalRank_sub_nonneg (hx : x.isFinite = true) (hy : y.isFinite = true)
    (hnonneg : y.negative = false) (h : y.less x = true) : 0 ≤ (x - y).totalRank := by
  have hrank : (y.magnitude : Int) < x.totalRank := by
    simpa [totalRank, hnonneg] using (less_iff_of_nonneg hnonneg (isNaN_of_isFinite hy)
      (isNaN_of_isFinite hx)).mp h
  have hsign : x.negative = false := by
    by_contra hneg
    simp only [totalRank, Bool.eq_true_of_not_eq_false hneg, if_true] at hrank
    omega
  have hunits : F.units y.magnitude < F.units x.magnitude := by
    simp only [totalRank, hsign, Bool.false_eq_true, if_false] at hrank
    exact F.units_strictMono (by omega)
  have hneg : (neg y).toUnits = -F.units y.magnitude := toUnits_of_negative (by simp [neg, hnonneg])
  have hpos : 0 < x.toUnits + (neg y).toUnits := by
    rw [toUnits_of_nonneg hsign, hneg]
    omega
  show 0 ≤ (x + neg y).totalRank
  rw [totalRank_add_of_pos hx (isFinite_neg hy) hpos]
  omega

end LoraSchedule.Number.Binary
