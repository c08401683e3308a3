import LoraSchedule.Proofs.Number.FixedPlaces
import LoraSchedule.Proofs.Number.Sums

/-!
# Shares of a number

A quotient of two numbers of which the second is the larger lies between zero
and one: it is a *share* (`isShare_div`).  Rounding included, a share of a number
is no larger than the number and has its sign (`toUnits_mul_between`).  So a sum
with a share of a number can only leave the range where the sum with the whole
number does (`isFinite_add_mul`).
-/

namespace LoraSchedule.Number.Binary

variable {F : Format} {x y : Binary F}

/-! ## Finite results have finite operands -/

theorem isFinite_infinite (negative : Bool) : (infinite negative : Binary F).isFinite = false :=
  decide_eq_false (Nat.lt_irrefl _)

theorem isFinite_nan : (nan : Binary F).isFinite = false :=
  decide_eq_false (Nat.le_add_right _ _).not_gt

theorem isFinite_of_isInfinite (hx : x.isInfinite = true) : x.isFinite = false := by
  simp only [isInfinite, isFinite, decide_eq_true_eq, decide_eq_false_iff_not] at *
  omega

/-- A sum is finite only where its terms are. -/
theorem isFinite_of_isFinite_add (h : (x + y).isFinite = true) :
    x.isFinite = true ∧ y.isFinite = true := by
  change (add x y).isFinite = true at h
  unfold add at h
  split_ifs at h with hnan hinfinite hopposite hother
  · simp [isFinite_nan] at h
  · simp [isFinite_nan] at h
  · simp [isFinite_of_isInfinite hinfinite] at h
  · simp [isFinite_of_isInfinite hother] at h
  all_goals
    simp only [Bool.or_eq_true, not_or] at hnan
    exact ⟨((kind_cases x).resolve_left hnan.1).resolve_left hinfinite,
      ((kind_cases y).resolve_left hnan.2).resolve_left hother⟩

/-- A product is finite only where its factors are. -/
theorem isFinite_of_isFinite_mul (h : (x * y).isFinite = true) :
    x.isFinite = true ∧ y.isFinite = true := by
  change (mul x y).isFinite = true at h
  unfold mul at h
  simp only at h
  split_ifs at h with hnan hinfinite
  · simp [isFinite_nan] at h
  · simp [isFinite_nan] at h
  · simp [isFinite_infinite] at h
  · simp only [Bool.or_eq_true, not_or] at hnan hinfinite
    exact ⟨((kind_cases x).resolve_left hnan.1).resolve_left hinfinite.1,
      ((kind_cases y).resolve_left hnan.2).resolve_left hinfinite.2⟩

/-! ## Finite operands -/

section Finite

variable (hx : x.isFinite = true) (hy : y.isFinite = true)

include hx hy

theorem mul_eq_ofUnits :
    x * y = ofUnits (x.negative != y.negative) (F.units x.magnitude * F.units y.magnitude)
      F.unitsPerOne := by
  show mul x y = _
  simp [mul, isNaN_of_isFinite, isInfinite_of_isFinite, hx, hy]

theorem div_eq_ofUnits (hpos : 0 < y.magnitude) :
    x / y = ofUnits (x.negative != y.negative) (F.units x.magnitude * F.unitsPerOne)
      (F.units y.magnitude) := by
  show div x y = _
  simp [div, isNaN_of_isFinite, isInfinite_of_isFinite, hx, hy, isZero, hpos.ne']

/-- A sum of finite numbers is finite where the exact sum is not rounded up to
infinity. -/
theorem isFinite_add_iff :
    (x + y).isFinite = true ↔ F.nearest (x.toUnits + y.toUnits).natAbs 1 < F.infinity := by
  by_cases hzero : x.toUnits + y.toUnits = 0
  · have hsome : 0 < F.infinity := (Nat.zero_le _).trans_lt (of_decide_eq_true hx)
    have hnearest : F.nearest 0 1 = 0 := by simpa [Format.units] using F.nearest_units 0 Nat.one_pos
    rw [add_eq_zero hx hy hzero, hzero, Int.natAbs_zero, hnearest]
    simp [isFinite, zero, hsome]
  · rw [add_eq_ofUnits hx hy hzero]
    simp [isFinite, ofUnits]

end Finite

/-- The value of a number is rounded to its own magnitude. -/
theorem nearest_natAbs_toUnits (x : Binary F) : F.nearest x.toUnits.natAbs 1 = x.magnitude := by
  have hunits : x.toUnits.natAbs = F.units x.magnitude * 1 := by
    unfold toUnits
    split <;> simp
  rw [hunits, F.nearest_units x.magnitude Nat.one_pos]

/-- A sum stays in the range if a term that is larger, with the same sign, does
not take it out of it. -/
theorem isFinite_add_of_between {z : Binary F} (hx : x.isFinite = true) (hy : y.isFinite = true)
    (hz : z.isFinite = true) (h : (x + z).isFinite = true)
    (hbetween : 0 ≤ y.toUnits ∧ y.toUnits ≤ z.toUnits ∨ z.toUnits ≤ y.toUnits ∧ y.toUnits ≤ 0) :
    (x + y).isFinite = true := by
  have hlarge : (x.toUnits + y.toUnits).natAbs ≤
      max x.toUnits.natAbs (x.toUnits + z.toUnits).natAbs := by
    omega
  rw [isFinite_add_iff hx hy]
  rw [isFinite_add_iff hx hz] at h
  calc F.nearest (x.toUnits + y.toUnits).natAbs 1
      ≤ F.nearest (max x.toUnits.natAbs (x.toUnits + z.toUnits).natAbs) 1 :=
        F.nearest_mono Nat.one_pos hlarge
    _ = max (F.nearest x.toUnits.natAbs 1) (F.nearest (x.toUnits + z.toUnits).natAbs 1) :=
        (F.nearest_mono Nat.one_pos).map_max
    _ < F.infinity := max_lt (x.nearest_natAbs_toUnits.trans_lt (of_decide_eq_true hx)) h

/-! ## Shares -/

/-- A number from zero to one. -/
structure IsShare (s : Double) : Prop where
  negative : s.negative = false
  magnitude : s.magnitude ≤ (ofNat 1 : Double).magnitude

theorem units_one : Format.double.units (ofNat 1 : Double).magnitude = Format.double.unitsPerOne := by
  decide +kernel

theorem isFinite_one : (ofNat 1 : Double).isFinite = true := isFinite_ofNat (by decide)

section Shares

variable {a b d s : Double}

theorem IsShare.isFinite (hs : IsShare s) : s.isFinite = true :=
  decide_eq_true (hs.magnitude.trans_lt (of_decide_eq_true isFinite_one))

theorem magnitude_ofNat_mono {m n : Nat} (h : m ≤ n) :
    (ofNat m : Double).magnitude ≤ (ofNat n : Double).magnitude :=
  min_le_min_right _ (Format.double.nearest_mono Nat.one_pos (Nat.mul_le_mul_right _ h))

theorem isShare_zero : IsShare (ofNat 0) := ⟨rfl, magnitude_ofNat_mono (Nat.zero_le 1)⟩

/-- **The quotient of a number by a larger one is a share.** -/
theorem isShare_div (ha : a.negative = false) (hb : b.negative = false) (hfinite : b.isFinite = true)
    (hpos : 0 < b.magnitude) (h : a.magnitude ≤ b.magnitude) : IsShare (a / b) := by
  have hunits : 0 < Format.double.units b.magnitude := units_pos_iff.mpr hpos
  have hafinite : a.isFinite = true := decide_eq_true (h.trans_lt (of_decide_eq_true hfinite))
  rw [div_eq_ofUnits hafinite hfinite hpos]
  refine ⟨by simp [ofUnits, ha, hb], min_le_min_right _ ?_⟩
  calc Format.double.nearest (Format.double.units a.magnitude * Format.double.unitsPerOne)
        (Format.double.units b.magnitude)
      ≤ Format.double.nearest (Format.double.units b.magnitude * Format.double.unitsPerOne)
        (Format.double.units b.magnitude) :=
        Format.double.nearest_mono hunits
          (Nat.mul_le_mul_right _ (Format.double.units_strictMono.monotone h))
    _ = Format.double.nearest (1 * Format.double.unitsPerOne * Format.double.units b.magnitude)
        (1 * Format.double.units b.magnitude) := by
        rw [Nat.one_mul, Nat.one_mul, Nat.mul_comm]
    _ = Format.double.nearest (1 * Format.double.unitsPerOne) 1 :=
        Format.double.nearest_mul_right _ _ hunits

/-- A number is the whole of itself. -/
theorem div_self (ha : a.isFinite = true) (hpos : 0 < a.magnitude) : a / a = ofNat 1 := by
  have hunits : 0 < Format.double.units a.magnitude := units_pos_iff.mpr hpos
  have hnearest := Format.double.nearest_mul_right (1 * Format.double.unitsPerOne) 1 hunits
  rw [Nat.one_mul, Nat.one_mul, Nat.mul_comm] at hnearest
  rw [div_eq_ofUnits ha ha hpos, ofNat, ofUnits, ofUnits, hnearest, Nat.one_mul, bne_self_eq_false]

/-- A share of a number has its sign and is no larger. -/
theorem toUnits_mul_between (hd : d.isFinite = true) (hs : IsShare s) :
    (d * s).isFinite = true ∧ (0 ≤ (d * s).toUnits ∧ (d * s).toUnits ≤ d.toUnits ∨
      d.toUnits ≤ (d * s).toUnits ∧ (d * s).toUnits ≤ 0) := by
  have hshare : Format.double.units s.magnitude ≤ Format.double.unitsPerOne :=
    (Format.double.units_strictMono.monotone hs.magnitude).trans_eq units_one
  have hmagnitude : (d * s).magnitude ≤ d.magnitude := by
    rw [mul_eq_ofUnits hd hs.isFinite]
    refine (min_le_left _ _).trans ?_
    calc Format.double.nearest
          (Format.double.units d.magnitude * Format.double.units s.magnitude)
          Format.double.unitsPerOne
        ≤ Format.double.nearest (Format.double.units d.magnitude * Format.double.unitsPerOne)
          Format.double.unitsPerOne :=
          Format.double.nearest_mono Format.double.unitsPerOne_pos (Nat.mul_le_mul_left _ hshare)
      _ = d.magnitude := Format.double.nearest_units _ Format.double.unitsPerOne_pos
  have hunits := Format.double.units_strictMono.monotone hmagnitude
  have hsign : (d * s).negative = d.negative := by
    rw [mul_eq_ofUnits hd hs.isFinite, ofUnits, hs.negative, Bool.bne_false]
  refine ⟨decide_eq_true (hmagnitude.trans_lt (of_decide_eq_true hd)), ?_⟩
  cases hnegative : d.negative with
  | false =>
      rw [toUnits_of_nonneg hnegative, toUnits_of_nonneg (hsign.trans hnegative)]
      omega
  | true =>
      rw [toUnits_of_negative hnegative, toUnits_of_negative (hsign.trans hnegative)]
      omega

theorem mul_one (hd : d.isFinite = true) : d * ofNat 1 = d := by
  have hfinite : d.magnitude < Format.double.infinity := of_decide_eq_true hd
  rw [mul_eq_ofUnits hd isFinite_one, units_one, ofUnits,
    Format.double.nearest_units _ Format.double.unitsPerOne_pos, min_eq_left hfinite.le]
  simp [ofNat, ofUnits]

/-- Nothing of a number is zero. -/
theorem toUnits_mul_zero (hd : d.isFinite = true) (hs : IsShare s) (hzero : s.magnitude = 0) :
    (d * s).toUnits = 0 := by
  have hunits : Format.double.units 0 = 0 := rfl
  have hnearest : Format.double.nearest 0 Format.double.unitsPerOne = 0 := by
    simpa [hunits] using Format.double.nearest_units 0 Format.double.unitsPerOne_pos
  rw [mul_eq_ofUnits hd hs.isFinite, hzero, hunits, Nat.mul_zero, toUnits, ofUnits, hnearest,
    Nat.zero_min, hunits]
  simp

/-- **A share of a number can be added where the number can.** -/
theorem isFinite_add_mul (ha : a.isFinite = true) (hs : IsShare s)
    (h : (a + d).isFinite = true) : (a + d * s).isFinite = true := by
  have hd := (isFinite_of_isFinite_add h).2
  obtain ⟨hproduct, hbetween⟩ := toUnits_mul_between hd hs
  exact isFinite_add_of_between ha hproduct hd h hbetween

/-- Nothing of a finite number can always be added. -/
theorem isFinite_add_mul_zero (ha : a.isFinite = true) (hd : d.isFinite = true) (hs : IsShare s)
    (hzero : s.magnitude = 0) : (a + d * s).isFinite = true := by
  rw [isFinite_add_iff ha (toUnits_mul_between hd hs).1, toUnits_mul_zero hd hs hzero, Int.add_zero,
    a.nearest_natAbs_toUnits]
  exact of_decide_eq_true ha

end Shares

end LoraSchedule.Number.Binary
