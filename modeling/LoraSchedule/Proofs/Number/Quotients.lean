import LoraSchedule.Proofs.Number.Shares

/-!
# Quotients and the order of numbers

Division by a number that is not zero keeps the order of magnitudes
(`magnitude_div_mono`), whether or not the numbers are in the range.  So whole
numbers divided by a whole number lie below a bound up to one of them
(`less_ofNat_div`).
-/

namespace LoraSchedule.Number.Binary

variable {F : Format} {a b d t : Binary F}

/-! ## Operands out of the range -/

theorem isNaN_of_isInfinite (ha : a.isInfinite = true) : a.isNaN = false :=
  decide_eq_false (of_decide_eq_true ha).le.not_gt

theorem div_infinite (ha : a.isFinite = true) (hd : d.isInfinite = true) :
    a / d = zero (a.negative != d.negative) := by
  show div a d = _
  simp [div, isNaN_of_isFinite ha, isInfinite_of_isFinite ha, isNaN_of_isInfinite hd, hd]

theorem infinite_div (ha : a.isInfinite = true) (hd : d.isFinite = true) :
    a / d = infinite (a.negative != d.negative) := by
  show div a d = _
  simp [div, isNaN_of_isInfinite ha, ha, isNaN_of_isFinite hd, isInfinite_of_isFinite hd]

theorem infinite_div_infinite (ha : a.isInfinite = true) (hd : d.isInfinite = true) :
    a / d = nan := by
  show div a d = _
  simp [div, ha, hd]

theorem div_nan (hd : d.isNaN = true) : a / d = nan := by
  show div a d = _
  simp [div, hd]

theorem negative_div (ha : a.negative = false) (hd : d.negative = false) :
    (a / d).negative = false := by
  show (div a d).negative = false
  unfold div
  split_ifs <;> simp [nan, infinite, zero, ofUnits, ha, hd]

/-! ## Order -/

/-- **The larger of two magnitudes has the larger quotient by a third number.** -/
theorem magnitude_div_mono (hpos : 0 < d.magnitude) (hb : b.isNaN = false)
    (h : a.magnitude ≤ b.magnitude) : (a / d).magnitude ≤ (b / d).magnitude := by
  have ha : a.isFinite = true ∨ a.isInfinite = true ∧ b.isInfinite = true := by
    simp only [isNaN, isFinite, isInfinite, decide_eq_false_iff_not, decide_eq_true_eq] at hb ⊢
    omega
  rcases kind_cases d with hd | hd | hd
  · rw [div_nan hd, div_nan hd]
  · rcases ha with ha | ⟨ha, hb⟩
    · rw [div_infinite ha hd]
      exact Nat.zero_le _
    · rw [infinite_div_infinite ha hd, infinite_div_infinite hb hd]
  · rcases ha with ha | ⟨ha, hb⟩
    · rcases (kind_cases b).resolve_left (by simp [hb]) with hb | hb
      · rw [div_eq_ofUnits ha hd hpos, infinite_div hb hd]
        exact min_le_right _ _
      · rw [div_eq_ofUnits ha hd hpos, div_eq_ofUnits hb hd hpos]
        apply min_le_min_right
        apply F.nearest_mono (units_pos_iff.mpr hpos)
        exact Nat.mul_le_mul_right _ (F.units_strictMono.monotone h)
    · rw [infinite_div ha hd, infinite_div hb hd]
      exact le_rfl

/-- Numbers that are not negative are compared by their magnitudes. -/
theorem less_of_magnitude_le (ha : a.negative = false) (hb : b.negative = false)
    (h : a.magnitude ≤ b.magnitude) (hless : b.less t = true) : a.less t = true := by
  simp only [less, Bool.and_eq_true, Bool.not_eq_true', decide_eq_true_eq, isNaN,
    decide_eq_false_iff_not, rank, ha, hb, Bool.false_eq_true, if_false] at hless ⊢
  omega

/-- **Of two whole numbers divided by a third, the smaller one is below whatever the larger one is
below.** -/
theorem less_ofNat_div {t : Double} {m n count : Nat} (hcount : 0 < count) (h : m ≤ n)
    (hless : (ofNat n / ofNat count : Double).less t = true) :
    (ofNat m / ofNat count : Double).less t = true := by
  have hpos : 0 < (ofNat count : Double).magnitude := by
    calc 0 < (ofNat 1 : Double).magnitude := by decide +kernel
      _ ≤ (ofNat count : Double).magnitude := magnitude_ofNat_mono hcount
  have hnan : (ofNat n : Double).isNaN = false :=
    decide_eq_false (Nat.not_lt.mpr (min_le_right _ _))
  have hle := magnitude_div_mono hpos hnan (magnitude_ofNat_mono h)
  exact less_of_magnitude_le (negative_div rfl rfl) (negative_div rfl rfl) hle hless

end LoraSchedule.Number.Binary
