import LoraSchedule.Proofs.Number.Errors
import LoraSchedule.Proofs.Schedule.Ramps
import LoraSchedule.Proofs.Schedule.Reparse
import LoraSchedule.Proofs.Schedule.Sorting
import Mathlib.Algebra.Order.Round
import Mathlib.Data.Rat.Floor

/-!
# Ramps in decimals

The points of a ramp are computed, and kept with four decimals.  Read exactly, a
coordinate is the interpolation between the ends of the ramp, rounded to four
decimals (`Line.Ramp.Interpolates`): the errors of the arithmetic are so much
smaller than what is rounded off that they show only where the exact interpolation
all but lies in the middle between two decimals.

What has four decimals keeps them when it is written and read again
(`Line.quantize_quantize`), so a ramp is turned into points once and for all
(`Line.legacy_ramp_normalized`): the line of the entry has the modern encoding,
and is read as the same points.
-/

namespace LoraSchedule

open LoraSchedule.Number
open LoraSchedule.Text

namespace Line

/-! ## Four decimals -/

/-- The count of the last decimal, with its sign. -/
def signed (negative : Bool) (count : Nat) : Int := if negative then -count else count

/-- A number is the one of a decimal with four places that is nearest to an exact
value, where the value is known up to a slack.  If no middle between two decimals
is so close to the value, there is one such decimal. -/
def Rounds (x : Double) (exact slack : ℚ) : Prop :=
  ∃ negative count, x = Binary.ofDecimal ⟨negative, count, -4⟩ ∧
    |signed negative count / 10 ^ 4 - exact| ≤ 1 / 2 / 10 ^ 4 + slack ∧
    ((∀ k : Int, slack < |exact - (k + 1 / 2) / 10 ^ 4|) →
      signed negative count = round (exact * 10 ^ 4))

/-- The decimal that is nearest up to a slack is the nearest one, unless the slack
reaches a middle between two decimals. -/
theorem eq_round_of_near {count : Int} {exact slack : ℚ}
    (hnear : |count / 10 ^ 4 - exact| ≤ 1 / 2 / 10 ^ 4 + slack)
    (hmiddle : ∀ k : Int, slack < |exact - (k + 1 / 2) / 10 ^ 4|) :
    count = round (exact * 10 ^ 4) := by
  have hround := abs_sub_round (exact * 10 ^ 4)
  generalize round (exact * 10 ^ 4) = nearest at hround
  rw [abs_le] at hround hnear
  rcases lt_trichotomy count nearest with hlt | heq | hgt
  · have hle : (count : ℚ) + 1 ≤ nearest := by exact_mod_cast hlt
    have hfar := hmiddle count
    rw [abs_of_nonneg (by linarith)] at hfar
    linarith
  · exact heq
  · have hle : (nearest : ℚ) + 1 ≤ count := by exact_mod_cast hgt
    have hfar := hmiddle (count - 1)
    push_cast at hfar
    rw [abs_of_nonpos (by linarith)] at hfar
    linarith

/-- **The decimals that are kept of a number are those of the value that it stands
for,** up to how far it is from it. -/
theorem rounds_quantize {v : Double} (hv : v.isFinite = true) (exact : ℚ) :
    Rounds (quantize v) exact |v.value - exact| := by
  have hsigned : (signed v.negative (v.fixedUnits 4) / 10 ^ 4 : ℚ) =
      Binary.sign v.negative * (v.fixedUnits 4 / 10 ^ 4) := by
    rw [signed, Binary.sign]
    split_ifs <;> push_cast <;> ring
  have hown := v.abs_fixedUnits_sub_le 4
  rw [← hsigned] at hown
  have hnear : |signed v.negative (v.fixedUnits 4) / 10 ^ 4 - exact| ≤
      1 / 2 / 10 ^ 4 + |v.value - exact| :=
    (abs_sub_le _ v.value _).trans (add_le_add hown le_rfl)
  exact ⟨v.negative, v.fixedUnits 4, quantize_eq_toPlaces hv, hnear, eq_round_of_near hnear⟩

/-! ## Exact interpolation -/

namespace Ramp

variable {r : Ramp} {index : Nat}

/-- The share of the way, read exactly. -/
def exactShare (r : Ramp) (index : Nat) : ℚ := if 1 < r.count then index / (r.count - 1) else 0

/-- A coordinate on the way between two numbers, read exactly. -/
def exactBetween (first last : Double) (share : ℚ) : ℚ :=
  first.value + (last.value - first.value) * share

/-- What the errors of the arithmetic add up to. -/
def slack (first last : Double) : ℚ :=
  (|first.value| + |last.value|) / 2 ^ 50 + 4 * Format.double.halfUnit

theorem abs_value_share_sub_le (hr : r.InBounds) (hindex : index < r.count) :
    |(r.share index).value - r.exactShare index| ≤ 1 / 2 ^ 53 + Format.double.halfUnit := by
  have hbound : r.count ≤ 1000 := hr.count
  by_cases hmany : 1 < r.count
  · obtain ⟨hfinite, hpos⟩ := steps_spec hr hmany
    have hindexFinite : (Binary.ofNat index : Double).isFinite = true :=
      Binary.isFinite_ofNat (by omega)
    have hshare := (isShare_share hr hindex).isFinite
    rw [share, if_pos hmany] at hshare ⊢
    have herror := Binary.abs_value_div_sub_le hindexFinite hfinite hpos hshare
    rw [Binary.value_ofNat (by omega), Binary.value_ofNat (by omega)] at herror
    have hsteps : ((r.count - 1 : Nat) : ℚ) = r.count - 1 := by
      rw [Nat.cast_sub hmany.le, Nat.cast_one]
    have hpart : |(index : ℚ) / (r.count - 1 : Nat)| ≤ 1 := by
      rw [abs_of_nonneg (by positivity)]
      exact div_le_one_of_le₀ (by exact_mod_cast Nat.le_sub_one_of_lt hindex) (Nat.cast_nonneg _)
    rw [exactShare, if_pos hmany, ← hsteps]
    refine herror.trans (add_le_add ?_ le_rfl)
    exact div_le_div_of_nonneg_right hpart (by positivity)
  · have hzero : (Binary.ofNat 0 : Double).value = 0 := by
      rw [Binary.value_ofNat (by norm_num), Nat.cast_zero]
    rw [share, if_neg hmany, exactShare, if_neg hmany, hzero, sub_zero, abs_zero]
    exact add_nonneg (by positivity) Format.double.halfUnit_nonneg

/-- A coordinate of a ramp: it is computed as the interpolation between two numbers
and rounded to four decimals.  Read exactly, it is the exact interpolation rounded
to four decimals, up to the error of the arithmetic, which is small. -/
structure Interpolates (r : Ramp) (index : Nat) (first last x : Double) : Prop where
  computed : x = quantize (between first last (r.share index))
  exactly : Rounds x (exactBetween first last (r.exactShare index))
    |(between first last (r.share index)).value - exactBetween first last (r.exactShare index)|
  error_le : |(between first last (r.share index)).value -
    exactBetween first last (r.exactShare index)| ≤ slack first last

theorem interpolates_quantize (hr : r.InBounds) (hindex : index < r.count) {first last : Double}
    (hfinite : (between first last (r.share index)).isFinite = true) :
    r.Interpolates index first last (quantize (between first last (r.share index))) where
  computed := rfl
  exactly := rounds_quantize hfinite _
  error_le := Binary.abs_value_interpolation_sub_le (isShare_share hr hindex)
    (abs_value_share_sub_le hr hindex) hfinite

/-- A point at an index of a ramp. -/
structure Passes (r : Ramp) (index : Nat) (p : KeyPoint) : Prop where
  place : r.Interpolates index r.firstPlace r.lastPlace p.x
  strength : r.Interpolates index r.firstStrength r.lastStrength p.y

/-- The interpolated values of a ramp are finite. -/
def IsComputable (r : Ramp) : Prop :=
  ∀ index < r.count, (between r.firstPlace r.lastPlace (r.share index)).isFinite = true ∧
    (between r.firstStrength r.lastStrength (r.share index)).isFinite = true

theorem passes_point (hr : r.InBounds) (hfinite : r.IsComputable) (hindex : index < r.count) :
    r.Passes index (r.point index) := by
  obtain ⟨hplace, hstrength⟩ := hfinite index hindex
  exact ⟨interpolates_quantize hr hindex hplace, interpolates_quantize hr hindex hstrength⟩

end Ramp

/-! ## The fields of a ramp -/

/-- The finite number in a field. -/
def numberField? (fields : List (List Char)) (index : Nat) : Option Double :=
  fields[index]?.bind readNumber?

/-- The whole number in the field of the count. -/
def countField? (fields : List (List Char)) : Option Int := fields[8]?.bind readCount?

/-- The fields of a line are the numbers of a ramp, with a count in bounds. -/
structure Ramp.IsWritten (r : Ramp) (fields : List (List Char)) : Prop where
  firstStrength : numberField? fields 3 = some r.firstStrength
  lastStrength : numberField? fields 4 = some r.lastStrength
  firstPlace : numberField? fields 6 = some r.firstPlace
  lastPlace : numberField? fields 7 = some r.lastPlace
  count : countField? fields = some (r.count : Int)
  count_pos : 1 ≤ r.count
  count_le : r.count ≤ 1000

/-- A number of the ramp is missing, or its count is or is out of bounds. -/
def NoRamp (fields : List (List Char)) : Prop :=
  (∃ index ∈ [3, 4, 6, 7], numberField? fields index = none) ∨
    ∀ count, countField? fields = some count → count < 1 ∨ 1000 < count

section Fields

variable {line : List Char} {fields : List (List Char)} {r : Ramp}

theorem ofFields?_eq (fields : List (List Char)) : Ramp.ofFields? fields = do
    let count ← countField? fields
    guard (count ≤ maxRampPoints)
    return ⟨← numberField? fields 3, ← numberField? fields 4, ← numberField? fields 6,
      ← numberField? fields 7, count.toNat⟩ :=
  rfl

theorem ofFields?_of_isWritten (hr : r.IsWritten fields) : Ramp.ofFields? fields = some r := by
  have hcount : (r.count : Int) ≤ maxRampPoints := by exact_mod_cast hr.count_le
  simp [ofFields?_eq, hr.count, hr.firstStrength, hr.lastStrength, hr.firstPlace, hr.lastPlace,
    guard, hcount]

/-- A ramp without points is read where its count is not positive. -/
theorem isWritten_of_ofFields? (hr : Ramp.ofFields? fields = some r) (hpos : 0 < r.count) :
    r.IsWritten fields := by
  simp only [ofFields?_eq, Option.bind_eq_bind, Option.bind_eq_some_iff,
    Option.guard_eq_some'] at hr
  obtain ⟨count, hcount, _, hle, a, ha, b, hb, c, hc, d, hd, hr⟩ := hr
  obtain rfl := Option.some.inj hr
  have hnat : ((count.toNat : Nat) : Int) = count := Int.toNat_of_nonneg (by
    simp only [Int.lt_toNat] at hpos
    omega)
  refine ⟨ha, hb, hc, hd, hcount.trans (congrArg some hnat.symm), hpos, ?_⟩
  exact Int.toNat_le.mpr hle

/-- Where the numbers of a ramp are missing there are no points. -/
theorem points_eq_nil_of_noRamp (h : NoRamp fields) :
    ((Ramp.ofFields? fields).map Ramp.points).getD [] = [] := by
  cases hr : Ramp.ofFields? fields with
  | none => rfl
  | some r =>
      by_contra hne
      have hpos : 0 < r.count := by
        by_contra hzero
        simp [Ramp.points, Nat.eq_zero_of_not_pos hzero] at hne
      have hwritten := isWritten_of_ofFields? hr hpos
      have hle := hwritten.count_le
      rcases h with ⟨index, hindex, hnone⟩ | hcount
      · simp only [List.mem_cons, List.not_mem_nil, or_false] at hindex
        rcases hindex with rfl | rfl | rfl | rfl
        · simp [hwritten.firstStrength] at hnone
        · simp [hwritten.lastStrength] at hnone
        · simp [hwritten.firstPlace] at hnone
        · simp [hwritten.lastPlace] at hnone
      · have hbounds := hcount _ hwritten.count
        omega

theorem entryOfFields_of_noRamp (hlegacy : Encoding.ofFields fields = .legacyRamp)
    (h : NoRamp fields) : entryOfFields fields = { headEntry fields with points := flatCurve } := by
  have hsorted : sortPoints flatCurve = flatCurve := sortPoints_of_pairwise (by decide +kernel)
  rw [entryOfFields_of_legacy hlegacy, points_eq_nil_of_noRamp h, if_pos rfl, hsorted]

theorem entryOfFields_of_isWritten (hlegacy : Encoding.ofFields fields = .legacyRamp)
    (hr : r.IsWritten fields) :
    entryOfFields fields = { headEntry fields with points := sortPoints r.points } := by
  have hne : r.points ≠ [] := by
    have hpos := hr.count_pos
    rw [ne_eq, Ramp.points, List.map_eq_nil_iff, List.range_eq_nil]
    omega
  rw [entryOfFields_of_legacy hlegacy, ofFields?_of_isWritten hr, Option.map_some,
    Option.getD_some, if_neg hne]

/-! ## Reading back -/

/-- An entry with points of four decimals is read back with these points. -/
theorem read?_renderChars_of_points {points : List KeyPoint} (hfields : fields? line = some fields)
    (hentry : entryOfFields fields = { headEntry fields with points })
    (hpoints : ∀ p ∈ points, p.IsFinite ∧ p.rounded = p) :
    encoding? (entryOfFields fields).renderChars = some .modern ∧
      ∃ e', read? (entryOfFields fields).renderChars = some e' ∧
        e'.points = (entryOfFields fields).points := by
  have hfinite : (entryOfFields fields).IsFinite := by
    rw [hentry]
    exact { (legible_headEntry fields).isFinite with points := fun p hp => (hpoints p hp).1 }
  have hsettled := settled_of_isFinite hfields hfinite
  refine ⟨Entry.encoding?_renderChars hsettled, _, Entry.read?_renderChars hsettled, ?_⟩
  rw [hentry]
  exact (List.map_congr_left fun p hp => (hpoints p hp).2).trans (List.map_id _)

end Fields

theorem Ramp.rounded_of_mem_points {r : Ramp} (hfinite : r.IsComputable) {p : KeyPoint}
    (hp : p ∈ r.points) : p.IsFinite ∧ p.rounded = p := by
  obtain ⟨index, hindex, rfl⟩ := List.mem_map.mp hp
  obtain ⟨hplace, hstrength⟩ := hfinite index (List.mem_range.mp hindex)
  refine ⟨⟨isFinite_quantize hplace, isFinite_quantize hstrength⟩, ?_⟩
  rw [r.point_eq, KeyPoint.rounded, quantize_quantize hplace, quantize_quantize hstrength]

theorem rounded_of_mem_flatCurve {p : KeyPoint} (hp : p ∈ flatCurve) :
    p.IsFinite ∧ p.rounded = p := by
  have hrounded : ∀ p ∈ flatCurve, p.rounded = p := by decide +kernel
  exact ⟨isFinite_of_mem_flatCurve hp, hrounded p hp⟩

/-- **Ramps become points once and for all.**  A line in the legacy encoding has
neither a preset nor weights.  The fields of a ramp give as many points as they
say, evenly spread between its ends, with four decimals and in order; without a
ramp there is the flat curve.  Either way the line of the entry has the modern
encoding, and is read as the same points. -/
theorem legacy_ramp_normalized {line : List Char} {fields : List (List Char)}
    (hfields : fields? line = some fields) (hlegacy : Encoding.ofFields fields = .legacyRamp) :
    ∃ e, read? line = some e ∧ e.preset = none ∧ e.vectors = ∅ ∧
      (∀ r : Ramp, r.IsWritten fields → r.IsComputable →
        e.points.length = r.count ∧ ∃ points : List KeyPoint, points.length = r.count ∧
          StablySorts e.points points ∧
          ∀ index < r.count, ∃ p, points[index]? = some p ∧ r.Passes index p) ∧
      (NoRamp fields → e.points = flatCurve) ∧
      ((∃ r : Ramp, r.IsWritten fields ∧ r.IsComputable) ∨ NoRamp fields →
        encoding? e.renderChars = some .modern ∧
          ∃ e', read? e.renderChars = some e' ∧ e'.points = e.points) := by
  refine ⟨entryOfFields fields, by rw [read?, hfields, Option.map_some], ?_, ?_, ?_, ?_, ?_⟩
  · rw [entryOfFields_of_legacy hlegacy]
    rfl
  · rw [entryOfFields_of_legacy hlegacy]
    rfl
  · intro r hr hfinite
    have hbounds := Ramp.inBounds_of_ofFields? (ofFields?_of_isWritten hr)
    have hlength : r.points.length = r.count := by
      rw [Ramp.points, List.length_map, List.length_range]
    rw [entryOfFields_of_isWritten hlegacy hr]
    refine ⟨(List.mergeSort_perm r.points _).length_eq.trans hlength, r.points, hlength,
      stablySorts_sortPoints r.points, fun index hindex => ⟨r.point index, ?_, ?_⟩⟩
    · simp [Ramp.points, hindex]
    · exact Ramp.passes_point hbounds hfinite hindex
  · intro hnone
    rw [entryOfFields_of_noRamp hlegacy hnone]
  · rintro (⟨r, hr, hfinite⟩ | hnone)
    · exact read?_renderChars_of_points hfields (entryOfFields_of_isWritten hlegacy hr) fun p hp =>
        Ramp.rounded_of_mem_points hfinite (mem_sortPoints.mp hp)
    · exact read?_renderChars_of_points hfields (entryOfFields_of_noRamp hlegacy hnone) fun p hp =>
        rounded_of_mem_flatCurve hp

/-- A ramp of three points whose places go down, so that they are sorted, and one
without points. -/
theorem legacy_ramp_normalized_descending :
    (∃ e, read? "<lora:ink:1:1:1:0:x:0.9:0.1:3>".toList = some e ∧ e.points.length = 3 ∧
      encoding? e.renderChars = some .modern ∧
      ∃ e', read? e.renderChars = some e' ∧ e'.points = e.points) ∧
    ∃ e, read? "<lora:ink:1:1:1:0:x:0.9:0.1:0>".toList = some e ∧ e.points = flatCurve := by
  constructor
  · obtain ⟨fields, hfields⟩ : ∃ fields, fields =
        ["ink", "1", "1", "1", "0", "x", "0.9", "0.1", "3"].map String.toList := ⟨_, rfl⟩
    obtain ⟨r, hr⟩ : ∃ r : Ramp, r = ⟨Binary.ofNat 1, Binary.ofNat 0,
        Binary.ofDecimal ⟨false, 9, -1⟩, Binary.ofDecimal ⟨false, 1, -1⟩, 3⟩ := ⟨_, rfl⟩
    have hwritten : r.IsWritten fields := by
      rw [hr, hfields]
      constructor <;> decide +kernel
    have hfinite : r.IsComputable := by
      rw [hr]
      unfold Ramp.IsComputable
      decide +kernel
    obtain ⟨e, hread, -, -, hpoints, -, hback⟩ := legacy_ramp_normalized
      (by rw [hfields]; decide : fields? "<lora:ink:1:1:1:0:x:0.9:0.1:3>".toList = some fields)
      (by rw [hfields]; decide +kernel)
    have hlength := (hpoints r hwritten hfinite).1
    rw [hr] at hlength
    obtain ⟨hencoding, e', hread', hsame⟩ := hback (.inl ⟨r, hwritten, hfinite⟩)
    exact ⟨e, hread, hlength, hencoding, e', hread', hsame⟩
  · obtain ⟨fields, hfields⟩ : ∃ fields, fields =
        ["ink", "1", "1", "1", "0", "x", "0.9", "0.1", "0"].map String.toList := ⟨_, rfl⟩
    obtain ⟨e, hread, -, -, -, hflat, -⟩ := legacy_ramp_normalized
      (by rw [hfields]; decide : fields? "<lora:ink:1:1:1:0:x:0.9:0.1:0>".toList = some fields)
      (by rw [hfields]; decide +kernel)
    refine ⟨e, hread, hflat (.inr fun count hcount => ?_)⟩
    have hzero : countField? fields = some 0 := by
      rw [hfields]
      decide +kernel
    obtain rfl := Option.some.inj (hzero.symm.trans hcount)
    exact .inl one_pos

end Line

end LoraSchedule
