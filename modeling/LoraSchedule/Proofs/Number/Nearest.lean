import LoraSchedule.Number.Printing
import Mathlib.Data.Nat.Dist
import Mathlib.Order.Monotone.Basic
import Mathlib.Tactic.Ring

/-!
# Rounding to the nearest number

The two roundings of the library, to a whole number (`divideToEven`) and to a
magnitude of a format (`Format.nearest`), give a value at least as near as any
other.  What is used of them elsewhere follows from that alone:

* they do not decrease (`divideToEven_mono`, `Format.nearest_mono`);
* they return what they can represent (`Format.nearest_units`);
* a whole number within half a unit is the one rounded to, and exactly half a
  unit away it is so if it is even (`divideToEven_eq`).

Distances are taken as `Nat.dist`, between multiples of the denominator and the
numerator, so that nothing is divided.
-/

namespace LoraSchedule.Number

/-! ## Whole numbers -/

/-- How the remainder decides between the two neighbouring whole numbers. -/
theorem divideToEven_cases (num den : Nat) :
    2 * (num % den) < den ∧ divideToEven num den = num / den ∨
      den < 2 * (num % den) ∧ divideToEven num den = num / den + 1 ∨
      2 * (num % den) = den ∧ divideToEven num den = num / den + num / den % 2 := by
  unfold divideToEven
  simp only
  split_ifs with hlow hhigh
  · exact Or.inl ⟨hlow, rfl⟩
  · exact Or.inr (Or.inl ⟨hhigh, rfl⟩)
  · exact Or.inr (Or.inr ⟨by omega, rfl⟩)

/-- Half a unit is the most that is lost; where it is lost, the result is even. -/
theorem divideToEven_spec (num : Nat) {den : Nat} (hden : 0 < den) :
    2 * Nat.dist (divideToEven num den * den) num ≤ den ∧
      (2 * Nat.dist (divideToEven num den * den) num = den → divideToEven num den % 2 = 0) := by
  have hdiv : num / den * den + num % den = num := Nat.div_add_mod' num den
  have hmod : num % den < den := Nat.mod_lt num hden
  have hsucc : (num / den + 1) * den = num / den * den + den := Nat.succ_mul _ _
  rcases divideToEven_cases num den with ⟨hrest, hvalue⟩ | ⟨hrest, hvalue⟩ | ⟨hrest, hvalue⟩
  · rw [hvalue, Nat.dist]
    constructor <;> omega
  · rw [hvalue, hsucc, Nat.dist]
    constructor <;> omega
  · rcases Nat.mod_two_eq_zero_or_one (num / den) with heven | hodd
    · rw [hvalue, heven, Nat.add_zero, Nat.dist]
      constructor <;> omega
    · rw [hvalue, hodd, hsucc, Nat.dist]
      constructor <;> omega

/-- A whole number that is no further away than half a unit, and even if it is
that far away, is the one rounded to. -/
theorem divideToEven_eq {num den c : Nat} (hden : 0 < den)
    (hnear : 2 * Nat.dist (c * den) num ≤ den)
    (heven : 2 * Nat.dist (c * den) num = den → c % 2 = 0) : divideToEven num den = c := by
  obtain ⟨hbound, htie⟩ := divideToEven_spec num hden
  generalize divideToEven num den = d at *
  simp only [Nat.dist] at *
  -- Two different whole numbers this near are neighbours, with the ratio in the middle.
  rcases Nat.lt_trichotomy d c with hlt | heq | hgt
  · have hstep : d * den + den ≤ c * den := by
      rw [← Nat.succ_mul]
      exact Nat.mul_le_mul_right den hlt
    have hneighbour : c * den < (d + 2) * den := by
      rw [Nat.add_mul]
      omega
    have hc : c < d + 2 := Nat.lt_of_mul_lt_mul_right hneighbour
    omega
  · exact heq
  · have hstep : c * den + den ≤ d * den := by
      rw [← Nat.succ_mul]
      exact Nat.mul_le_mul_right den hgt
    have hneighbour : d * den < (c + 2) * den := by
      rw [Nat.add_mul]
      omega
    have hd : d < c + 2 := Nat.lt_of_mul_lt_mul_right hneighbour
    omega

/-- No whole number is nearer than the one rounded to. -/
theorem divideToEven_dist_le (num c : Nat) {den : Nat} (hden : 0 < den) :
    Nat.dist (divideToEven num den * den) num ≤ Nat.dist (c * den) num := by
  obtain ⟨hbound, _⟩ := divideToEven_spec num hden
  by_contra hless
  have hnear : 2 * Nat.dist (c * den) num < den := by omega
  have hsame : divideToEven num den = c := divideToEven_eq hden hnear.le (by omega)
  rw [hsame] at hless
  exact hless le_rfl

/-- If two points are each at least as near to their ratio as the other point
is, they are ordered as the ratios are. -/
private theorem le_of_dist_le {a b x y : Nat} (hxy : x ≤ y) (ha : Nat.dist a x ≤ Nat.dist b x)
    (hb : Nat.dist b y ≤ Nat.dist a y) : a ≤ b ∨ x = y := by
  simp only [Nat.dist] at ha hb
  omega

theorem divideToEven_mono {den : Nat} (hden : 0 < den) :
    Monotone fun num => divideToEven num den := by
  intro x y hxy
  rcases le_of_dist_le hxy (divideToEven_dist_le x (divideToEven y den) hden)
    (divideToEven_dist_le y (divideToEven x den) hden) with hle | rfl
  · exact Nat.le_of_mul_le_mul_right hle hden
  · exact le_rfl

/-- A common factor of numerator and denominator does not matter. -/
theorem divideToEven_mul_right (num den : Nat) {k : Nat} (hk : 0 < k) :
    divideToEven (num * k) (den * k) = divideToEven num den := by
  have hlow : 2 * (num % den * k) < den * k ↔ 2 * (num % den) < den := by
    rw [← Nat.mul_assoc, Nat.mul_lt_mul_right hk]
  have hhigh : den * k < 2 * (num % den * k) ↔ den < 2 * (num % den) := by
    rw [← Nat.mul_assoc, Nat.mul_lt_mul_right hk]
  simp only [divideToEven, Nat.mul_div_mul_right _ _ hk, Nat.mul_mod_mul_right, hlow, hhigh]

/-! ## Magnitudes -/

namespace Format

variable (F : Format)

/-- A magnitude is a scale and a count of steps of that scale.  The count may
reach the next power of two, where the scales meet. -/
theorem units_scale_add {scale count : Nat}
    (hlow : scale = 0 ∨ 2 ^ F.fractionBits ≤ count) (hhigh : count ≤ 2 ^ (F.fractionBits + 1)) :
    F.units (scale * 2 ^ F.fractionBits + count) = count * 2 ^ scale := by
  have hpos : 0 < 2 ^ F.fractionBits := Nat.two_pow_pos _
  rw [pow_succ] at hhigh
  unfold units
  simp only [Nat.pow_eq]
  rcases Nat.lt_or_ge count (2 ^ F.fractionBits) with hsmall | hlarge
  · obtain rfl : scale = 0 := by omega
    simp [Nat.div_eq_of_lt hsmall, Nat.mod_eq_of_lt hsmall]
  · obtain ⟨rest, rfl⟩ := Nat.exists_eq_add_of_le hlarge
    rw [← Nat.add_assoc, ← Nat.succ_mul, Nat.mul_comm (scale + 1), Nat.mul_add_div hpos,
      Nat.mul_add_mod]
    rcases Nat.lt_or_ge rest (2 ^ F.fractionBits) with hinner | hcarry
    · simp [Nat.div_eq_of_lt hinner, Nat.mod_eq_of_lt hinner]
    · obtain rfl : rest = 2 ^ F.fractionBits := by omega
      simp [Nat.div_self hpos, pow_succ]
      ring

/-- Every magnitude is of this form, with a count below the next power of two. -/
theorem exists_scale (m : Nat) :
    ∃ scale count, m = scale * 2 ^ F.fractionBits + count ∧
      (scale = 0 ∨ 2 ^ F.fractionBits ≤ count) ∧ count < 2 ^ (F.fractionBits + 1) := by
  have hpos : 0 < 2 ^ F.fractionBits := Nat.two_pow_pos _
  have hdiv : m / 2 ^ F.fractionBits * 2 ^ F.fractionBits + m % 2 ^ F.fractionBits = m :=
    Nat.div_add_mod' m _
  have hmod : m % 2 ^ F.fractionBits < 2 ^ F.fractionBits := Nat.mod_lt m hpos
  cases hexponent : m / 2 ^ F.fractionBits with
  | zero =>
      refine ⟨0, m, by simp, Or.inl rfl, ?_⟩
      rw [hexponent] at hdiv
      rw [pow_succ]
      omega
  | succ scale =>
      rw [hexponent, Nat.succ_mul] at hdiv
      refine ⟨scale, 2 ^ F.fractionBits + m % 2 ^ F.fractionBits, by omega, Or.inr (by omega), ?_⟩
      rw [pow_succ]
      omega

theorem units_strictMono : StrictMono F.units := by
  apply strictMono_nat_of_lt_succ
  intro m
  obtain ⟨scale, count, rfl, hlow, hhigh⟩ := F.exists_scale m
  rw [Nat.add_assoc, F.units_scale_add hlow hhigh.le,
    F.units_scale_add (hlow.imp_right fun h => by omega) hhigh]
  exact Nat.mul_lt_mul_of_pos_right count.lt_succ_self (Nat.two_pow_pos scale)

/-! ## The nearest magnitude -/

/-- The scale at which `nearest` counts. -/
def scaleOf (num den : Nat) : Nat := (num / den).log2 - F.fractionBits

theorem nearest_eq (num den : Nat) :
    F.nearest num den = F.scaleOf num den * 2 ^ F.fractionBits +
      divideToEven num (den * 2 ^ F.scaleOf num den) :=
  rfl

/-- Above the least scale a ratio reaches the first full count of its scale. -/
theorem scaleOf_low {num den : Nat} (hden : 0 < den) :
    F.scaleOf num den = 0 ∨
      2 ^ F.fractionBits * (den * 2 ^ F.scaleOf num den) ≤ num := by
  rw [or_iff_not_imp_left]
  intro hscale
  have hlog : F.fractionBits + F.scaleOf num den = (num / den).log2 := by
    unfold scaleOf at *
    omega
  have hquotient : num / den ≠ 0 := by
    intro hzero
    rw [hzero, Nat.log2_zero] at hlog
    omega
  have hle : 2 ^ (F.fractionBits + F.scaleOf num den) ≤ num / den := by
    rw [hlog]
    exact Nat.log2_self_le hquotient
  calc 2 ^ F.fractionBits * (den * 2 ^ F.scaleOf num den)
      = 2 ^ (F.fractionBits + F.scaleOf num den) * den := by rw [pow_add]; ring
    _ ≤ num := (Nat.le_div_iff_mul_le hden).mp hle

/-- A ratio stays below the first full count of the next scale. -/
theorem scaleOf_high {num den : Nat} (hden : 0 < den) :
    num < 2 ^ (F.fractionBits + 1) * (den * 2 ^ F.scaleOf num den) := by
  have hlog : (num / den).log2 + 1 ≤ F.fractionBits + 1 + F.scaleOf num den := by
    unfold scaleOf
    omega
  have hlt : num / den < 2 ^ (F.fractionBits + 1 + F.scaleOf num den) :=
    Nat.lt_log2_self.trans_le (Nat.pow_le_pow_right Nat.two_pos hlog)
  calc num < 2 ^ (F.fractionBits + 1 + F.scaleOf num den) * den :=
        (Nat.div_lt_iff_lt_mul hden).mp hlt
    _ = 2 ^ (F.fractionBits + 1) * (den * 2 ^ F.scaleOf num den) := by rw [pow_add]; ring

/-- The value of the nearest magnitude is the nearest count of its scale. -/
theorem units_nearest (num : Nat) {den : Nat} (hden : 0 < den) :
    F.units (F.nearest num den) =
      divideToEven num (den * 2 ^ F.scaleOf num den) * 2 ^ F.scaleOf num den := by
  have hstep : 0 < den * 2 ^ F.scaleOf num den := Nat.mul_pos hden (Nat.two_pow_pos _)
  have hfull : ∀ n, divideToEven (n * (den * 2 ^ F.scaleOf num den))
      (den * 2 ^ F.scaleOf num den) = n := fun n =>
    divideToEven_eq hstep (by simp [Nat.dist_self]) (by simp [Nat.dist_self]; omega)
  rw [nearest_eq, F.units_scale_add]
  · refine (F.scaleOf_low hden).imp_right ?_
    intro hle
    exact (hfull _).symm.le.trans (divideToEven_mono hstep hle)
  · exact (divideToEven_mono hstep (F.scaleOf_high hden).le).trans (hfull _).le

/-- **No magnitude is nearer to a ratio than the one rounded to.** -/
theorem nearest_dist_le (num m : Nat) {den : Nat} (hden : 0 < den) :
    Nat.dist (F.units (F.nearest num den) * den) num ≤ Nat.dist (F.units m * den) num := by
  have hstep : 0 < den * 2 ^ F.scaleOf num den := Nat.mul_pos hden (Nat.two_pow_pos _)
  have hbest : ∀ c, Nat.dist (F.units (F.nearest num den) * den) num ≤
      Nat.dist (c * (den * 2 ^ F.scaleOf num den)) num := by
    intro c
    rw [F.units_nearest num hden, Nat.mul_assoc, Nat.mul_comm _ den]
    exact divideToEven_dist_le num c hstep
  obtain ⟨scale, count, rfl, hlow, hhigh⟩ := F.exists_scale m
  rw [F.units_scale_add hlow hhigh.le]
  rcases Nat.lt_or_ge scale (F.scaleOf num den) with hfiner | hcoarser
  · -- On a finer scale all values lie below the ratio's own, and the first of these is nearer.
    have hratio : 2 ^ F.fractionBits * (den * 2 ^ F.scaleOf num den) ≤ num :=
      (F.scaleOf_low hden).resolve_left (Nat.ne_of_gt (Nat.zero_lt_of_lt hfiner))
    have hbelow : count * 2 ^ scale * den ≤
        2 ^ F.fractionBits * (den * 2 ^ F.scaleOf num den) := by
      calc count * 2 ^ scale * den ≤ 2 ^ (F.fractionBits + 1) * 2 ^ scale * den :=
            Nat.mul_le_mul_right _ (Nat.mul_le_mul_right _ hhigh.le)
        _ = 2 ^ F.fractionBits * (den * 2 ^ (scale + 1)) := by rw [pow_succ, pow_succ]; ring
        _ ≤ 2 ^ F.fractionBits * (den * 2 ^ F.scaleOf num den) :=
            Nat.mul_le_mul_left _ (Nat.mul_le_mul_left _
              (Nat.pow_le_pow_right Nat.two_pos hfiner))
    refine (hbest (2 ^ F.fractionBits)).trans ?_
    simp only [Nat.dist]
    omega
  · -- On the ratio's scale or a coarser one all values are counts of its steps.
    obtain ⟨more, rfl⟩ := Nat.exists_eq_add_of_le hcoarser
    have hcount : count * 2 ^ (F.scaleOf num den + more) * den =
        count * 2 ^ more * (den * 2 ^ F.scaleOf num den) := by rw [pow_add]; ring
    rw [hcount]
    exact hbest _

theorem nearest_mono {den : Nat} (hden : 0 < den) : Monotone fun num => F.nearest num den := by
  intro x y hxy
  rcases le_of_dist_le hxy (F.nearest_dist_le x (F.nearest y den) hden)
    (F.nearest_dist_le y (F.nearest x den) hden) with hle | rfl
  · exact F.units_strictMono.le_iff_le.mp (Nat.le_of_mul_le_mul_right hle hden)
  · exact le_rfl

/-- A representable value is rounded to its own magnitude. -/
theorem nearest_units (m : Nat) {den : Nat} (hden : 0 < den) :
    F.nearest (F.units m * den) den = m := by
  have hzero : Nat.dist (F.units (F.nearest (F.units m * den) den) * den) (F.units m * den) = 0 :=
    Nat.le_zero.mp ((F.nearest_dist_le _ m hden).trans (Nat.dist_self _).le)
  exact F.units_strictMono.injective
    (Nat.eq_of_mul_eq_mul_right hden (Nat.eq_of_dist_eq_zero hzero))

/-- A common factor of numerator and denominator does not matter. -/
theorem nearest_mul_right (num den : Nat) {k : Nat} (hk : 0 < k) :
    F.nearest (num * k) (den * k) = F.nearest num den := by
  have hscale : F.scaleOf (num * k) (den * k) = F.scaleOf num den := by
    rw [scaleOf, scaleOf, Nat.mul_div_mul_right _ _ hk]
  rw [nearest_eq, nearest_eq, hscale, Nat.mul_right_comm den k, divideToEven_mul_right _ _ hk]

end Format

end LoraSchedule.Number
