import LoraSchedule.Proofs.Schedule.Legible

/-!
# The fields of a line

The points and the block weights of a legible entry are written as fields that
are read as the same points and weights, rounded to four decimals
(`readPoints_formatPoints`, `addVectors_formatVectors`).  None of the fields
holds a colon or has blanks at its ends, so neither cutting a line into its
fields nor trimming these changes them.
-/

namespace LoraSchedule

open LoraSchedule.Number
open LoraSchedule.Text

theorem Entry.exists_renderChars_eq (e : Entry) : ∃ rest, e.renderChars = '<' :: rest := ⟨_, rfl⟩

theorem Entry.renderChars_ne_nil (e : Entry) : e.renderChars ≠ [] := by
  obtain ⟨rest, hrest⟩ := e.exists_renderChars_eq
  simp [hrest]

/-! ## Numbers -/

theorem trimmed_formatValue {x : Double} (hx : x.isFinite = true) : Trimmed (formatValue x) :=
  trimmed_of_forall fun _ hc => isBlank_of_isNumeralChar (isNumeralChar_of_mem_formatValue hx hc)

/-! ## Points -/

/-- The point that the text of a point is read as. -/
def KeyPoint.rounded (p : KeyPoint) : KeyPoint := ⟨Line.quantize p.x, Line.quantize p.y⟩

/-- The text of a point. -/
def pointText (p : KeyPoint) : List Char := formatValue p.x ++ ',' :: formatValue p.y

theorem formatPoints_eq (points : List KeyPoint) :
    formatPoints points = joinWith [';'] ((sortPoints points).map pointText) :=
  rfl

theorem trimmed_pointText {p : KeyPoint} (hp : p.IsFinite) : Trimmed (pointText p) :=
  (trimmed_formatValue hp.1).append_cons (by decide) (trimmed_formatValue hp.2)

theorem not_mem_pointText {p : KeyPoint} (hp : p.IsFinite) {c : Char}
    (hc : isNumeralChar c = false) (hcomma : c ≠ ',') : c ∉ pointText p := by
  intro hmem
  rcases List.mem_append.mp hmem with hx | hrest
  · exact not_mem_formatValue hp.1 hc hx
  · rcases List.mem_cons.mp hrest with heq | hy
    · exact hcomma heq
    · exact not_mem_formatValue hp.2 hc hy

theorem readPoint?_pointText {p : KeyPoint} (hp : p.IsFinite) :
    Line.readPoint? (pointText p) = some p.rounded := by
  have hsplit : (pointText p).splitOn ',' = [formatValue p.x, formatValue p.y] := by
    rw [pointText, List.splitOn_append_cons_self_of_not_mem (not_mem_formatValue hp.1 (by decide)),
      List.splitOn_eq_singleton (not_mem_formatValue hp.2 (by decide))]
  simp [Line.readPoint?, hsplit, readNumber?_formatValue hp.1, readNumber?_formatValue hp.2,
    KeyPoint.rounded]

section Points

variable {points : List KeyPoint}

theorem trimmed_formatPoints (hpoints : ∀ p ∈ points, p.IsFinite) :
    Trimmed (formatPoints points) := by
  rw [formatPoints_eq]
  refine trimmed_joinWith (by decide) ?_
  intro text htext
  obtain ⟨p, hp, rfl⟩ := List.mem_map.mp htext
  exact trimmed_pointText (hpoints p (mem_sortPoints.mp hp))

theorem not_mem_formatPoints (hpoints : ∀ p ∈ points, p.IsFinite) {c : Char}
    (hc : isNumeralChar c = false) (hcomma : c ≠ ',') (hsemicolon : c ≠ ';') :
    c ∉ formatPoints points := by
  rw [formatPoints_eq]
  refine not_mem_joinWith hsemicolon ?_
  intro text htext
  obtain ⟨p, hp, rfl⟩ := List.mem_map.mp htext
  exact not_mem_pointText (hpoints p (mem_sortPoints.mp hp)) hc hcomma

theorem comma_mem_formatPoints (hne : points ≠ []) : ',' ∈ formatPoints points := by
  obtain ⟨p, rest, hsorted⟩ := List.exists_cons_of_ne_nil (mt sortPoints_eq_nil_iff.mp hne)
  rw [formatPoints_eq, hsorted]
  cases rest with
  | nil => simp [pointText]
  | cons q others => simp [joinWith_cons_cons, pointText]

/-- **Points that are written and read keep their order and are rounded.** -/
theorem readPoints_formatPoints (hne : points ≠ []) (hpoints : ∀ p ∈ points, p.IsFinite) :
    Line.readPoints (formatPoints points) = (sortPoints points).map KeyPoint.rounded := by
  have hsplit : (formatPoints points).splitOn ';' = (sortPoints points).map pointText := by
    rw [formatPoints_eq]
    refine splitOn_joinWith ?_ fun text htext => ?_
    · rw [ne_eq, List.map_eq_nil_iff, sortPoints_eq_nil_iff]
      exact hne
    · obtain ⟨p, hp, rfl⟩ := List.mem_map.mp htext
      exact not_mem_pointText (hpoints p (mem_sortPoints.mp hp)) (by decide) (by decide)
  rw [Line.readPoints, hsplit, List.filterMap_map, ← List.filterMap_eq_map]
  refine List.filterMap_congr ?_
  intro p hp
  exact readPoint?_pointText (hpoints p (mem_sortPoints.mp hp))

theorem pointText_rounded {p : KeyPoint} (hp : p.IsFinite) : pointText p.rounded = pointText p := by
  rw [pointText, pointText, KeyPoint.rounded, formatValue_quantize hp.1, formatValue_quantize hp.2]

/-- Rounding keeps points in order. -/
theorem sortPoints_map_rounded (hpoints : ∀ p ∈ points, p.IsFinite)
    (hsorted : sortPoints points = points) :
    sortPoints (points.map KeyPoint.rounded) = points.map KeyPoint.rounded := by
  refine sortPoints_of_pairwise (List.pairwise_map.mpr ?_)
  have hpairwise := pairwise_sortPoints points
  rw [hsorted] at hpairwise
  refine hpairwise.imp_of_mem fun ha hb hab => ?_
  exact Line.totalAtMost_quantize (hpoints _ ha).1 (hpoints _ hb).1 hab

theorem formatPoints_rounded (hpoints : ∀ p ∈ points, p.IsFinite)
    (hsorted : sortPoints points = points) :
    formatPoints (points.map KeyPoint.rounded) = formatPoints points := by
  rw [formatPoints_eq, formatPoints_eq, sortPoints_map_rounded hpoints hsorted, hsorted,
    List.map_map]
  exact congrArg _ (List.map_congr_left fun p hp => pointText_rounded (hpoints p hp))

end Points

/-! ## Block weights -/

/-- The text of a block weight. -/
def weightText (weight : String × Double) : List Char :=
  weight.1.toList ++ '=' :: formatValue weight.2

theorem formatVectors_eq (vectors : Dict Double) :
    formatVectors vectors = joinWith [';'] (vectors.toList.map weightText) :=
  rfl

section Weights

variable {weight : String × Double} {vectors : Dict Double}

theorem trimmed_weightText (hkey : IsBlockKey weight.1.toList)
    (hweight : weight.2.isFinite = true) :
    Trimmed (weightText weight) :=
  hkey.trimmed.append_cons (by decide) (trimmed_formatValue hweight)

theorem not_mem_weightText (hweight : weight.2.isFinite = true) {c : Char}
    (hkey : c ∉ weight.1.toList) (hc : isNumeralChar c = false) (hassignment : c ≠ '=') :
    c ∉ weightText weight := by
  intro hmem
  rcases List.mem_append.mp hmem with hin | hrest
  · exact hkey hin
  · rcases List.mem_cons.mp hrest with heq | hvalue
    · exact hassignment heq
    · exact not_mem_formatValue hweight hc hvalue

theorem addVector_weightText (vectors : Dict Double) (hkey : IsBlockKey weight.1.toList)
    (hweight : weight.2.isFinite = true) :
    Line.addVector vectors (weightText weight) =
      vectors.insert weight.1 (Line.quantize weight.2) := by
  have hsplit : splitOnce? '=' (weightText weight) =
      some (weight.1.toList, formatValue weight.2) :=
    splitOnce?_eq_some_iff.mpr ⟨rfl, hkey.assignment⟩
  simp only [Line.addVector, hsplit, Option.some_or, readNumber?_formatValue hweight,
    trim_eq_self hkey.trimmed, String.ofList_toList]

theorem foldl_addVector_weightText {weights : List (String × Double)} (start : Dict Double)
    (hweights : ∀ weight ∈ weights, IsBlockKey weight.1.toList ∧ weight.2.isFinite = true) :
    (weights.map weightText).foldl Line.addVector start =
      (weights.map fun weight => (weight.1, Line.quantize weight.2)).foldl
        (fun d weight => d.insert weight.1 weight.2) start := by
  induction weights generalizing start with
  | nil => rfl
  | cons weight rest ih =>
      have hfirst := hweights weight (List.mem_cons_self ..)
      rw [List.map_cons, List.foldl_cons, addVector_weightText start hfirst.1 hfirst.2]
      exact ih _ fun other hother => hweights other (List.mem_cons_of_mem _ hother)

theorem trimmed_formatVectors (hvectors : WeightsLegible vectors) :
    Trimmed (formatVectors vectors) := by
  rw [formatVectors_eq]
  refine trimmed_joinWith (by decide) ?_
  intro text htext
  obtain ⟨weight, hmem, rfl⟩ := List.mem_map.mp htext
  exact trimmed_weightText (hvectors weight hmem).1 (hvectors weight hmem).2

theorem not_mem_formatVectors (hvectors : WeightsLegible vectors) {c : Char}
    (hkey : ∀ weight ∈ vectors.toList, c ∉ weight.1.toList) (hc : isNumeralChar c = false)
    (hassignment : c ≠ '=') (hsemicolon : c ≠ ';') : c ∉ formatVectors vectors := by
  rw [formatVectors_eq]
  refine not_mem_joinWith hsemicolon ?_
  intro text htext
  obtain ⟨weight, hmem, rfl⟩ := List.mem_map.mp htext
  exact not_mem_weightText (hvectors weight hmem).2 (hkey weight hmem) hc hassignment

/-- **Weights that are written and read keep their keys and are rounded.** -/
theorem addVectors_formatVectors (hne : vectors.isEmpty = false)
    (hvectors : WeightsLegible vectors) :
    Line.addVectors ∅ (formatVectors vectors) = vectors.map fun _ => Line.quantize := by
  have hsplit : (formatVectors vectors).splitOn ';' = vectors.toList.map weightText := by
    rw [formatVectors_eq]
    refine splitOn_joinWith ?_ fun text htext => ?_
    · rw [ne_eq, List.map_eq_nil_iff]
      simpa [Dict.isEmpty] using hne
    · obtain ⟨weight, hmem, rfl⟩ := List.mem_map.mp htext
      exact not_mem_weightText (hvectors weight hmem).2 (hvectors weight hmem).1.pair (by decide)
        (by decide)
  -- The pairs are neither blank nor have blanks around them.
  have htrim : ((vectors.toList.map weightText).map trim).filter (· ≠ []) =
      vectors.toList.map weightText := by
    have hself : (vectors.toList.map weightText).map trim = vectors.toList.map weightText := by
      rw [List.map_map]
      exact List.map_congr_left fun weight hmem =>
        trim_eq_self (trimmed_weightText (hvectors weight hmem).1 (hvectors weight hmem).2)
    rw [hself, List.filter_eq_self]
    intro text htext
    obtain ⟨weight, -, rfl⟩ := List.mem_map.mp htext
    simp [weightText]
  rw [Line.addVectors, hsplit, htrim, foldl_addVector_weightText ∅ hvectors]
  exact Dict.ofList_toList (vectors.map fun _ => Line.quantize)

theorem formatVectors_rounded (hvectors : WeightsLegible vectors) :
    formatVectors (vectors.map fun _ => Line.quantize) = formatVectors vectors := by
  rw [formatVectors_eq, formatVectors_eq, Dict.map, List.map_map]
  refine congrArg _ (List.map_congr_left ?_)
  intro weight hmem
  simp only [weightText, Function.comp_apply, formatValue_quantize (hvectors weight hmem).2]

end Weights

end LoraSchedule
