import LoraSchedule.Proofs.Number.Shares
import LoraSchedule.Proofs.Schedule.Head

/-!
# Finite numbers

The numbers that stand in a line are finite where they are taken; anything else
keeps its default.  Only the points of a ramp are computed, from numbers that
may be far apart: they are finite just if the difference of the ends is, and the
first end with this difference added (`Ramp.forall_isFinite_points_iff`).  Each
point between them adds a share of the difference, which leaves the range only
where the difference does.

A point is read back from its text just if it is finite
(`isSome_readPoint?_pointText_iff`), and a line of which all numbers are finite is
written in full, in either encoding (`Line.settled_of_isFinite`).
-/

namespace LoraSchedule

open LoraSchedule.Number
open LoraSchedule.Text

/-- Every number of an entry is finite. -/
structure Entry.IsFinite (e : Entry) : Prop where
  modelStrength : e.modelStrength.isFinite = true
  clipStrength : e.clipStrength.isFinite = true
  points : ∀ p ∈ e.points, p.IsFinite
  vectors : ∀ weight ∈ e.vectors.toList, weight.2.isFinite = true

theorem Entry.Legible.isFinite {e : Entry} (he : e.Legible) : e.IsFinite :=
  ⟨he.modelStrength, he.clipStrength, he.points, fun weight hweight => (he.vectors weight hweight).2⟩

/-! ## Texts of points -/

/-- The text of an infinite number or of NaN is no number. -/
theorem readNumber?_formatValue_eq_none {x : Double} (hx : x.isFinite = false) :
    Line.readNumber? (formatValue x) = none := by
  have hwords : ∀ word ∈ ["NaN".toList, "inf".toList, "-inf".toList],
      Line.readNumber? word = none := by
    decide
  exact hwords _ (formatValue_of_not_isFinite hx)

/-- **A point is read back from its text just if it is finite.** -/
theorem isSome_readPoint?_pointText_iff (p : KeyPoint) :
    (Line.readPoint? (pointText p)).isSome = true ↔ p.IsFinite := by
  constructor
  · intro h
    have hcomma : ∀ x : Double, ',' ∉ formatValue x :=
      fun x hmem => absurd (isNumeralChar_or_isAlpha hmem) (by decide)
    have hsplit : (pointText p).splitOn ',' = [formatValue p.x, formatValue p.y] := by
      rw [pointText, List.splitOn_append_cons_self_of_not_mem (hcomma p.x),
        List.splitOn_eq_singleton (hcomma p.y)]
    by_contra hnot
    rw [KeyPoint.IsFinite, not_and_or, Bool.not_eq_true, Bool.not_eq_true] at hnot
    rcases hnot with hx | hy
    · simp [Line.readPoint?, hsplit, readNumber?_formatValue_eq_none hx] at h
    · simp [Line.readPoint?, hsplit, readNumber?_formatValue_eq_none hy] at h
  · intro hp
    rw [readPoint?_pointText hp, Option.isSome_some]

namespace Line

theorem isFinite_quantize_iff (x : Double) : (quantize x).isFinite = true ↔ x.isFinite = true := by
  refine ⟨fun h => ?_, isFinite_quantize⟩
  by_contra hx
  unfold quantize at h
  split_ifs at h
  · exact absurd h (by rw [Binary.isFinite_nan]; exact Bool.false_ne_true)
  · exact hx h

/-! ## Ramps -/

/-- On the way from one number to another nothing leaves the range: the difference
does not, if there is a point at all, nor does the sum that gives the last point,
if there is one besides the first. -/
structure Spans (first last : Double) (count : Nat) : Prop where
  start : 0 < count → (last - first).isFinite = true
  finish : 1 < count → (first + (last - first)).isFinite = true

/-- Both the places and the strengths of a ramp stay in the range. -/
structure Ramp.StaysFinite (r : Ramp) : Prop where
  places : Spans r.firstPlace r.lastPlace r.count
  strengths : Spans r.firstStrength r.lastStrength r.count

instance (first last : Double) (count : Nat) : Decidable (Spans first last count) :=
  decidable_of_iff
    ((0 < count → (last - first).isFinite = true) ∧
      (1 < count → (first + (last - first)).isFinite = true))
    ⟨fun h => ⟨h.1, h.2⟩, fun h => ⟨h.start, h.finish⟩⟩

instance (r : Ramp) : Decidable r.StaysFinite :=
  decidable_of_iff
    (Spans r.firstPlace r.lastPlace r.count ∧ Spans r.firstStrength r.lastStrength r.count)
    ⟨fun h => ⟨h.1, h.2⟩, fun h => ⟨h.places, h.strengths⟩⟩

/-- What a ramp is read with: finite ends, and not too many points. -/
structure Ramp.InBounds (r : Ramp) : Prop where
  firstStrength : r.firstStrength.isFinite = true
  lastStrength : r.lastStrength.isFinite = true
  firstPlace : r.firstPlace.isFinite = true
  lastPlace : r.lastPlace.isFinite = true
  count : r.count ≤ maxRampPoints

/-- The ramp on a line. -/
def ramp? (line : List Char) : Option Ramp := do
  let fields ← fields? line
  guard (Encoding.ofFields fields = .legacyRamp)
  Ramp.ofFields? fields

namespace Ramp

theorem inBounds_of_ofFields? {fields : List (List Char)} {r : Ramp}
    (h : Ramp.ofFields? fields = some r) : r.InBounds := by
  have hnumber : ∀ {field : Option (List Char)} {x : Double}, field.bind readNumber? = some x →
      x.isFinite = true := by
    intro field x hx
    obtain ⟨text, -, hread⟩ := Option.bind_eq_some_iff.mp hx
    exact isFinite_readNumber? hread
  unfold Ramp.ofFields? at h
  simp only [Option.bind_eq_bind, Option.bind_eq_some_iff, Option.guard_eq_some'] at h
  obtain ⟨count, -, _, hcount, a, ha, b, hb, c, hc, d, hd, h⟩ := h
  obtain rfl := Option.some.inj h
  refine ⟨hnumber (Option.bind_eq_some_iff.mpr ha), hnumber (Option.bind_eq_some_iff.mpr hb),
    hnumber (Option.bind_eq_some_iff.mpr hc), hnumber (Option.bind_eq_some_iff.mpr hd), ?_⟩
  exact Int.toNat_le.mpr hcount

variable {r : Ramp}

/-- The share of the way at which a point of a ramp lies. -/
def share (r : Ramp) (index : Nat) : Double :=
  if 1 < r.count then Binary.ofNat index / Binary.ofNat (r.count - 1) else Binary.ofNat 0

theorem point_eq (r : Ramp) (index : Nat) :
    r.point index = ⟨quantize (between r.firstPlace r.lastPlace (r.share index)),
      quantize (between r.firstStrength r.lastStrength (r.share index))⟩ :=
  rfl

/-- The steps of a ramp are counted by positive numbers. -/
theorem steps_spec (hr : r.InBounds) (hmany : 1 < r.count) :
    (Binary.ofNat (r.count - 1) : Double).isFinite = true ∧
      0 < (Binary.ofNat (r.count - 1) : Double).magnitude := by
  have hone : 0 < (Binary.ofNat 1 : Double).magnitude := by decide +kernel
  have hbound : r.count ≤ 1000 := hr.count
  exact ⟨Binary.isFinite_ofNat (by omega),
    hone.trans_le (Binary.magnitude_ofNat_mono (by omega))⟩

theorem isShare_share (hr : r.InBounds) {index : Nat} (hindex : index < r.count) :
    Binary.IsShare (r.share index) := by
  unfold share
  split_ifs with hmany
  · obtain ⟨hfinite, hpos⟩ := steps_spec hr hmany
    exact Binary.isShare_div rfl rfl hfinite hpos (Binary.magnitude_ofNat_mono (by omega))
  · exact Binary.isShare_zero

/-- **A way stays in the range just if its ends can be reached.** -/
theorem forall_isFinite_between_iff (hr : r.InBounds) {first last : Double}
    (hfirst : first.isFinite = true) :
    (∀ index < r.count, (between first last (r.share index)).isFinite = true) ↔
      Spans first last r.count := by
  constructor
  · intro h
    have hdifference : 0 < r.count → (last - first).isFinite = true := fun hsome =>
      (Binary.isFinite_of_isFinite_mul (Binary.isFinite_of_isFinite_add (h 0 hsome)).2).1
    refine ⟨hdifference, fun hmany => ?_⟩
    -- the last point lies all the way along
    obtain ⟨hfinite, hpos⟩ := steps_spec hr hmany
    have hlast := h (r.count - 1) (by omega)
    rwa [between, share, if_pos hmany, Binary.div_self hfinite hpos,
      Binary.mul_one (hdifference (by omega))] at hlast
  · intro h index hindex
    have hshare := isShare_share hr hindex
    by_cases hmany : 1 < r.count
    · exact Binary.isFinite_add_mul hfirst hshare (h.finish hmany)
    · refine Binary.isFinite_add_mul_zero hfirst (h.start (by omega)) hshare ?_
      rw [share, if_neg hmany]
      decide +kernel

/-- **The points of a ramp are finite just if it stays in the range.** -/
theorem forall_isFinite_points_iff (hr : r.InBounds) :
    (∀ p ∈ r.points, p.IsFinite) ↔ r.StaysFinite := by
  have hpoints : (∀ p ∈ r.points, p.IsFinite) ↔
      (∀ index < r.count,
        (between r.firstPlace r.lastPlace (r.share index)).isFinite = true) ∧
      ∀ index < r.count,
        (between r.firstStrength r.lastStrength (r.share index)).isFinite = true := by
    rw [points, List.forall_mem_map, ← forall₂_and]
    simp only [List.mem_range, point_eq, KeyPoint.IsFinite, isFinite_quantize_iff]
  rw [hpoints, forall_isFinite_between_iff hr hr.firstPlace,
    forall_isFinite_between_iff hr hr.firstStrength]
  exact ⟨fun h => ⟨h.1, h.2⟩, fun h => ⟨h.places, h.strengths⟩⟩

end Ramp

/-! ## Entries of lines -/

section Lines

variable {line : List Char} {fields : List (List Char)}

theorem ramp?_eq (hfields : fields? line = some fields) :
    ramp? line = if Encoding.ofFields fields = .legacyRamp then Ramp.ofFields? fields else none := by
  simp only [ramp?, hfields, Option.bind_eq_bind, Option.bind_some]
  split_ifs with hlegacy <;> simp [guard, hlegacy]

/-- The entry of a line in the legacy encoding: the flat curve stands in for a ramp
without points. -/
theorem entryOfFields_of_legacy (hlegacy : Encoding.ofFields fields = .legacyRamp) :
    entryOfFields fields = { headEntry fields with
      points := sortPoints
        (if ((Ramp.ofFields? fields).map Ramp.points).getD [] = [] then flatCurve
        else ((Ramp.ofFields? fields).map Ramp.points).getD []) } := by
  simp only [entryOfFields, hlegacy, Entry.sorted]
  split_ifs <;> rfl

/-- In the legacy encoding the points are those of the ramp, or the flat curve
where it has none. -/
theorem exists_entryOfFields_of_legacy (hlegacy : Encoding.ofFields fields = .legacyRamp) :
    ∃ points, entryOfFields fields = { headEntry fields with points := sortPoints points } ∧
      points ≠ [] ∧
      ((∀ p ∈ points, p.IsFinite) ↔ ∀ r ∈ Ramp.ofFields? fields, r.StaysFinite) := by
  have hramp : (∀ p ∈ ((Ramp.ofFields? fields).map Ramp.points).getD [], p.IsFinite) ↔
      ∀ r ∈ Ramp.ofFields? fields, r.StaysFinite := by
    cases hr : Ramp.ofFields? fields with
    | none => simp
    | some r => simpa using Ramp.forall_isFinite_points_iff (Ramp.inBounds_of_ofFields? hr)
  refine ⟨_, entryOfFields_of_legacy hlegacy, ?_⟩
  split_ifs with hnil
  · refine ⟨by decide, ?_⟩
    rw [← hramp, hnil]
    simpa using fun p => isFinite_of_mem_flatCurve
  · exact ⟨hnil, hramp⟩

/-- **The numbers of an entry are finite just if its ramp, if there is one, stays
in the range.** -/
theorem isFinite_entryOfFields_iff (hfields : fields? line = some fields) :
    (entryOfFields fields).IsFinite ↔ ∀ r ∈ ramp? line, r.StaysFinite := by
  rw [ramp?_eq hfields]
  cases hencoding : Encoding.ofFields fields with
  | modern => simpa using (settled_entryOfFields hfields hencoding).toLegible.isFinite
  | legacyRamp =>
      obtain ⟨points, hentry, -, hpoints⟩ := exists_entryOfFields_of_legacy hencoding
      have hhead := (legible_headEntry fields).isFinite
      rw [if_pos rfl, ← hpoints, hentry]
      refine ⟨fun h p hp => h.points p (mem_sortPoints.mpr hp), fun h => ?_⟩
      exact { hhead with points := fun p hp => h p (mem_sortPoints.mp hp) }

/-- A weight is finite in either encoding. -/
theorem isFinite_weight_entryOfFields (hfields : fields? line = some fields) :
    ∀ weight ∈ (entryOfFields fields).vectors.toList, weight.2.isFinite = true := by
  cases hencoding : Encoding.ofFields fields with
  | modern => exact (settled_entryOfFields hfields hencoding).toLegible.isFinite.vectors
  | legacyRamp =>
      obtain ⟨points, hentry, -, -⟩ := exists_entryOfFields_of_legacy hencoding
      rw [hentry]
      exact (legible_headEntry fields).isFinite.vectors

/-- **What a line is read as can be written in full if its numbers are finite**, in
either encoding. -/
theorem settled_of_isFinite (hfields : fields? line = some fields)
    (h : (entryOfFields fields).IsFinite) : (entryOfFields fields).Settled := by
  cases hencoding : Encoding.ofFields fields with
  | modern => exact settled_entryOfFields hfields hencoding
  | legacyRamp =>
      have hhead := legible_headEntry fields
      have havoids := avoids_of_fields? hfields (Or.inl rfl)
      obtain ⟨points, hentry, hne, -⟩ := exists_entryOfFields_of_legacy hencoding
      rw [hentry] at h havoids ⊢
      exact { hhead, havoids with
        points := h.points
        points_ne_nil := fun hnil => hne (sortPoints_eq_nil_iff.mp hnil)
        sorted := sortPoints_of_pairwise (pairwise_sortPoints points) }

end Lines

end Line

/-! ## Entries of texts -/

namespace Schedule

/-- **The numbers of the entries of a text of lines.**  Strengths and weights are
finite.  The points are, too, unless they are those of a ramp that leaves the
range; and a point is read back from its text just if it is finite.  Where all
points are finite the line of the entry is read, with every number rounded. -/
theorem finite_of_mem_parse (text : String) (htext : jsonItems? text.toList = none) :
    ∀ e ∈ parse text,
      e.modelStrength.isFinite = true ∧ e.clipStrength.isFinite = true ∧
        (∀ weight ∈ e.vectors.toList, weight.2.isFinite = true) ∧
        (∀ p ∈ e.points, (Line.readPoint? (pointText p)).isSome = true ↔ p.IsFinite) ∧
        ∃ line ∈ lines text.toList, Line.read? line = some e ∧
          ((∀ p ∈ e.points, p.IsFinite) ↔ ∀ r ∈ Line.ramp? line, r.StaysFinite) ∧
          ((∀ r ∈ Line.ramp? line, r.StaysFinite) →
            Line.read? e.renderChars = some e.rounded) := by
  intro e he
  simp only [parse, htext] at he
  obtain ⟨line, hline, hread⟩ := List.mem_filterMap.mp he
  obtain ⟨fields, hfields, rfl⟩ := Option.map_eq_some_iff.mp hread
  have hstrengths := finiteStrengths_entryOfFields fields
  have hweights := Line.isFinite_weight_entryOfFields hfields
  have hfinite := Line.isFinite_entryOfFields_iff hfields
  refine ⟨hstrengths.1, hstrengths.2, hweights, fun p _ => isSome_readPoint?_pointText_iff p, line,
    hline, hread, ⟨fun h => hfinite.mp ⟨hstrengths.1, hstrengths.2, h, hweights⟩,
      fun h => (hfinite.mpr h).points⟩, fun h => ?_⟩
  exact Entry.read?_renderChars (Line.settled_of_isFinite hfields (hfinite.mpr h))

/-- A ramp with strengths near the ends of the range, of opposite signs, under a
line with a strength that is no number. -/
theorem finite_of_mem_parse_wide_ramp :
    jsonItems? "<lora:pen:nan>\n<lora:ink:inf:1:-8e307:8e307:0:0:1:3>".toList = none ∧
      (parse "<lora:pen:nan>\n<lora:ink:inf:1:-8e307:8e307:0:0:1:3>").length = 2 ∧
      ∀ e ∈ parse "<lora:pen:nan>\n<lora:ink:inf:1:-8e307:8e307:0:0:1:3>", ∀ p ∈ e.points,
        p.IsFinite := by
  have htext : jsonItems? "<lora:pen:nan>\n<lora:ink:inf:1:-8e307:8e307:0:0:1:3>".toList =
      none := by
    decide
  have hspans : ∀ line ∈ lines "<lora:pen:nan>\n<lora:ink:inf:1:-8e307:8e307:0:0:1:3>".toList,
      ∀ r ∈ Line.ramp? line, r.StaysFinite := by
    decide +kernel
  refine ⟨htext, by decide +kernel, fun e he => ?_⟩
  obtain ⟨-, -, -, -, line, hline, -, hpoints, -⟩ := finite_of_mem_parse _ htext e he
  exact hpoints.mpr (hspans line hline)

/-- Places of opposite signs can be so far apart that the difference is infinite:
such a ramp starts at NaN and ends at infinity, and neither point is read back. -/
theorem not_finite_of_mem_parse :
    ¬ ∀ text : String, jsonItems? text.toList = none → ∀ e ∈ parse text, ∀ p ∈ e.points,
      p.IsFinite ∧ (Line.readPoint? (pointText p)).isSome = true := by
  intro h
  obtain ⟨text, htext⟩ : ∃ text, text = "<lora:a:1:1:0:1:0:-1e308:1e308:2>" := ⟨_, rfl⟩
  have hramp : (Line.ramp? text.toList).any (fun r =>
      decide (0 < r.count) && !(r.lastPlace - r.firstPlace).isFinite) = true := by
    rw [htext]
    decide +kernel
  have hlines : jsonItems? text.toList = none ∧ text.toList ∈ lines text.toList ∧
      (Line.fields? text.toList).isSome = true := by
    rw [htext]
    decide
  obtain ⟨hnone, hline, hsome⟩ := hlines
  obtain ⟨fields, hfields⟩ := Option.isSome_iff_exists.mp hsome
  have hmem : Line.entryOfFields fields ∈ parse text := by
    simp only [parse, hnone]
    exact List.mem_filterMap.mpr ⟨_, hline, by rw [Line.read?, hfields, Option.map_some]⟩
  have hstrengths := finiteStrengths_entryOfFields fields
  have hspans := (Line.isFinite_entryOfFields_iff hfields).mp
    ⟨hstrengths.1, hstrengths.2, fun p hp => (h text hnone _ hmem p hp).1,
      Line.isFinite_weight_entryOfFields hfields⟩
  cases hr : Line.ramp? text.toList with
  | none =>
      rw [hr] at hramp
      cases hramp
  | some r =>
      rw [hr, Option.any_some, Bool.and_eq_true, decide_eq_true_eq, Bool.not_eq_true'] at hramp
      exact Bool.false_ne_true (hramp.2.symm.trans ((hspans r hr).places.start hramp.1))

end Schedule

end LoraSchedule
