import LoraSchedule.Proofs.Number.Nearest
import Mathlib.Tactic.Positivity

/-!
# Numbers rounded to decimal places

`Binary.toPlaces` rounds a number to a decimal place and back to a number: it
is what the fixed-place form of the number reads as.  Both roundings lose
something, yet doing it again changes nothing (`fixedUnits_toPlaces`): the
number read is at least as near to the decimal as the first number was, so the
decimal is still the nearest one, and where it lies exactly in the middle it
was chosen for being even, and is again.
-/

namespace LoraSchedule.Number

/-- Between the largest finite number and infinity there is room for many ones. -/
theorem Format.units_infinity_gap :
    Format.double.units (Format.double.infinity - 1) + Format.double.unitsPerOne <
      Format.double.units Format.double.infinity := by
  decide +kernel

theorem Format.unitsPerOne_pos (F : Format) : 0 < F.unitsPerOne := Nat.two_pow_pos _

namespace Binary

variable {F : Format}

/-- A decimal with few places is read by one division. -/
theorem ofDecimal_places (negative : Bool) (coefficient : Nat) {places : Nat}
    (hplaces : places ≤ 2 ^ F.exponentBits) :
    (ofDecimal ⟨negative, coefficient, -(places : Int)⟩ : Binary F) =
      ofUnits negative (coefficient * F.unitsPerOne) (10 ^ places) := by
  have hreach : (places : Int) ≤ ((2 ^ F.exponentBits : Nat) : Int) := by exact_mod_cast hplaces
  unfold ofDecimal
  simp only [Nat.pow_eq]
  split_ifs with hzero hlarge hsmall hwhole
  · have hnearest : F.nearest 0 (10 ^ places) = 0 := by
      simpa [Format.units] using F.nearest_units 0 (Nat.pow_pos (n := places) (by decide : 0 < 10))
    simp [ofUnits, zero, hzero, hnearest]
  · omega
  · omega
  · obtain rfl : places = 0 := by omega
    simp
  · simp

/-- The number that the form of a number with this many decimals reads as. -/
def toPlaces (places : Nat) (x : Binary F) : Binary F :=
  ofDecimal ⟨x.negative, x.fixedUnits places, -(places : Int)⟩

/-- The decimal of a number is at most half a unit of its last place away; if it
is that far away, it is even. -/
theorem fixedUnits_spec (places : Nat) (x : Binary F) :
    2 * Nat.dist (x.fixedUnits places * F.unitsPerOne) (F.units x.magnitude * 10 ^ places) ≤
        F.unitsPerOne ∧
      (2 * Nat.dist (x.fixedUnits places * F.unitsPerOne) (F.units x.magnitude * 10 ^ places) =
          F.unitsPerOne → x.fixedUnits places % 2 = 0) :=
  divideToEven_spec _ F.unitsPerOne_pos

theorem fixedUnits_mono (places : Nat) {x y : Binary F} (h : x.magnitude ≤ y.magnitude) :
    x.fixedUnits places ≤ y.fixedUnits places :=
  divideToEven_mono F.unitsPerOne_pos
    (Nat.mul_le_mul_right _ (F.units_strictMono.monotone h))

/-- The nearest number to the decimal of `x` is no further from it than `x` is. -/
theorem dist_nearest_fixedUnits (places : Nat) (x : Binary F) :
    2 * Nat.dist
        (F.units (F.nearest (x.fixedUnits places * F.unitsPerOne) (10 ^ places)) * 10 ^ places)
        (x.fixedUnits places * F.unitsPerOne) ≤ F.unitsPerOne := by
  have hpos : 0 < 10 ^ places := by positivity
  have hnearest := F.nearest_dist_le (x.fixedUnits places * F.unitsPerOne) x.magnitude hpos
  have hspec := (x.fixedUnits_spec places).1
  rw [Nat.dist_comm] at hspec
  omega

/-- The decimal of a finite number is read as a finite number. -/
theorem nearest_fixedUnits_lt_infinity (places : Nat) {x : Double} (hx : x.isFinite = true) :
    Format.double.nearest (x.fixedUnits places * Format.double.unitsPerOne) (10 ^ places) <
      Format.double.infinity := by
  have hmagnitude : x.magnitude < Format.double.infinity := by simpa [isFinite] using hx
  have hgap := Format.units_infinity_gap
  have hnear := x.dist_nearest_fixedUnits places
  have hown := (x.fixedUnits_spec places).1
  by_contra hlarge
  have htop := Format.double.units_strictMono.monotone (not_lt.mp hlarge)
  have hbelow := Format.double.units_strictMono.monotone (Nat.le_sub_one_of_lt hmagnitude)
  -- The two numbers are both near to the decimal, but more than a one apart.
  have hapart : Format.double.units x.magnitude * 10 ^ places + Format.double.unitsPerOne <
      Format.double.units (Format.double.nearest
        (x.fixedUnits places * Format.double.unitsPerOne) (10 ^ places)) * 10 ^ places := by
    have hone : 1 ≤ 10 ^ places := Nat.one_le_pow _ _ (by decide)
    calc Format.double.units x.magnitude * 10 ^ places + Format.double.unitsPerOne
        ≤ (Format.double.units x.magnitude + Format.double.unitsPerOne) * 10 ^ places := by
          rw [Nat.add_mul]
          exact Nat.add_le_add_left (Nat.le_mul_of_pos_right _ hone) _
      _ < _ := Nat.mul_lt_mul_of_pos_right (by omega) hone
  simp only [Nat.dist] at hnear hown
  omega

theorem toPlaces_eq {places : Nat} (hplaces : places ≤ 2 ^ 11) {x : Double}
    (hx : x.isFinite = true) :
    x.toPlaces places = ⟨x.negative,
      Format.double.nearest (x.fixedUnits places * Format.double.unitsPerOne) (10 ^ places)⟩ := by
  rw [toPlaces, ofDecimal_places _ _ hplaces, ofUnits,
    min_eq_left (nearest_fixedUnits_lt_infinity places hx).le]

theorem isFinite_toPlaces {places : Nat} (hplaces : places ≤ 2 ^ 11) {x : Double}
    (hx : x.isFinite = true) : (x.toPlaces places).isFinite = true := by
  rw [toPlaces_eq hplaces hx]
  simpa [isFinite] using nearest_fixedUnits_lt_infinity places hx

theorem negative_toPlaces {places : Nat} (hplaces : places ≤ 2 ^ 11) {x : Double}
    (hx : x.isFinite = true) : (x.toPlaces places).negative = x.negative := by
  rw [toPlaces_eq hplaces hx]

/-- **The number that a decimal is read as has that decimal again.** -/
theorem fixedUnits_toPlaces {places : Nat} (hplaces : places ≤ 2 ^ 11) {x : Double}
    (hx : x.isFinite = true) : (x.toPlaces places).fixedUnits places = x.fixedUnits places := by
  rw [toPlaces_eq hplaces hx]
  refine divideToEven_eq Format.double.unitsPerOne_pos ?_ fun htie => ?_
  · rw [Nat.dist_comm]
    exact x.dist_nearest_fixedUnits places
  · -- A tie here is a tie for the first number, too.
    obtain ⟨hbound, heven⟩ := x.fixedUnits_spec places
    have hpos : 0 < 10 ^ places := by positivity
    have hnearest := Format.double.nearest_dist_le
      (x.fixedUnits places * Format.double.unitsPerOne) x.magnitude hpos
    simp only [Nat.pow_eq, Nat.dist_comm _ (x.fixedUnits places * _)] at htie hnearest
    exact heven (by omega)

/-- Rounding to places does not change the order, zeros of both signs included. -/
theorem totalRank_toPlaces_le {places : Nat} (hplaces : places ≤ 2 ^ 11) {x y : Double}
    (hx : x.isFinite = true) (hy : y.isFinite = true) (h : x.totalRank ≤ y.totalRank) :
    (x.toPlaces places).totalRank ≤ (y.toPlaces places).totalRank := by
  have hmono : ∀ {a b : Double}, a.magnitude ≤ b.magnitude →
      Format.double.nearest (a.fixedUnits places * Format.double.unitsPerOne) (10 ^ places) ≤
        Format.double.nearest (b.fixedUnits places * Format.double.unitsPerOne) (10 ^ places) :=
    fun hab => Format.double.nearest_mono (by positivity)
      (Nat.mul_le_mul_right _ (fixedUnits_mono places hab))
  rw [toPlaces_eq hplaces hx, toPlaces_eq hplaces hy]
  unfold totalRank at *
  cases hxs : x.negative <;> cases hys : y.negative <;> simp only [hxs, hys] at h ⊢ <;> simp at h ⊢
  · exact hmono h
  · omega
  · omega
  · exact hmono (by omega)

end Binary

end LoraSchedule.Number
