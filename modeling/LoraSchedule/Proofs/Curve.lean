import LoraSchedule.Curve
import LoraSchedule.Proofs.Number.Sums
import LoraSchedule.Proofs.Schedule.FieldText

/-!
# Padded curves

Padding keeps a curve in order and finite and makes it cover the whole process
(`padPoints_spec`).  A curve that covers the process
is not padded (`padPoints_of_covers`), and rounding its numbers to four decimals
does not uncover it, because nothing is rounded across 0 or 1.  So a padded
curve is padded only once, however often it is written and read
(`padPoints_map_rounded`).
-/

namespace LoraSchedule

open LoraSchedule.Number (Binary Double)
open LoraSchedule.Number.Binary

/-! ## The ends of the process -/

/-- Where the process starts. -/
def processStart : Double := ofNat 0

/-- Where the process ends. -/
def processEnd : Double := ofNat 1

section Ends

variable {x : Double}

theorem isFinite_processStart : processStart.isFinite = true := isFinite_ofNat (by decide)

theorem isFinite_processEnd : processEnd.isFinite = true := isFinite_ofNat (by decide)

/-- The ends of the process are whole, so they are not rounded, and ramps have
room between them. -/
theorem ends_spec :
    Line.quantize processStart = processStart ∧ Line.quantize processEnd = processEnd ∧
      processStart.totalRank = 0 ∧ 0 < processEnd.magnitude ∧ rampWidth.isFinite = true := by
  decide +kernel

theorem start_less_iff (hx : x.isNaN = false) :
    processStart.less x = true ↔ processStart.totalRank < x.totalRank :=
  less_iff_of_nonneg rfl (isNaN_of_isFinite isFinite_processStart) hx

theorem end_less_iff (hx : x.isNaN = false) :
    processEnd.less x = true ↔ processEnd.totalRank < x.totalRank :=
  less_iff_of_nonneg rfl (isNaN_of_isFinite isFinite_processEnd) hx

theorem less_end_iff (hx : x.isNaN = false) :
    x.less processEnd = true ↔ x.totalRank < processEnd.totalRank :=
  less_iff_of_pos rfl ends_spec.2.2.2.1 (isNaN_of_isFinite isFinite_processEnd) hx

theorem quantize_processStart : Line.quantize processStart = processStart := ends_spec.1

theorem quantize_processEnd : Line.quantize processEnd = processEnd := ends_spec.2.1

theorem totalRank_processStart : processStart.totalRank = 0 := ends_spec.2.2.1

theorem isFinite_rampWidth : rampWidth.isFinite = true := ends_spec.2.2.2.2

theorem rampWidth_nonneg : rampWidth.negative = false := by decide

theorem totalRank_quantize_le {y : Double} (hx : x.isFinite = true) (hy : y.isFinite = true)
    (h : x.totalRank ≤ y.totalRank) :
    (Line.quantize x).totalRank ≤ (Line.quantize y).totalRank := by
  simpa [totalAtMost] using Line.totalAtMost_quantize hx hy (decide_eq_true h)

end Ends

/-! ## Curves -/

/-- A point stands no later than another. -/
def KeyPoint.NoLater (a b : KeyPoint) : Prop := a.x.totalRank ≤ b.x.totalRank

/-- A curve as it is applied: finite points in the order of their places. -/
structure IsCurve (points : List KeyPoint) : Prop where
  ne_nil : points ≠ []
  finite : ∀ p ∈ points, p.IsFinite
  ordered : points.Pairwise KeyPoint.NoLater

/-- The first point is no later than the start of the process, and the last no
earlier than its end. -/
structure Covers (points : List KeyPoint) : Prop where
  head : ∀ p ∈ points.head?, p.x.totalRank ≤ processStart.totalRank
  last : ∀ p ∈ points.getLast?, processEnd.totalRank ≤ p.x.totalRank

section Curves

variable {points : List KeyPoint}

theorem isCurve_sortPoints (hne : points ≠ []) (hfinite : ∀ p ∈ points, p.IsFinite) :
    IsCurve (sortPoints points) where
  ne_nil := mt sortPoints_eq_nil_iff.mp hne
  finite := fun p hp => hfinite p (mem_sortPoints.mp hp)
  ordered := (pairwise_sortPoints points).imp fun hab => of_decide_eq_true hab

theorem IsCurve.sortPoints_eq (h : IsCurve points) : sortPoints points = points := by
  refine sortPoints_of_pairwise (h.ordered.imp ?_)
  intro a b hab
  exact decide_eq_true hab

theorem IsCurve.map_rounded (h : IsCurve points) : IsCurve (points.map KeyPoint.rounded) where
  ne_nil := mt List.map_eq_nil_iff.mp h.ne_nil
  finite := by
    intro q hq
    obtain ⟨p, hp, rfl⟩ := List.mem_map.mp hq
    exact ⟨Line.isFinite_quantize (h.finite p hp).1, Line.isFinite_quantize (h.finite p hp).2⟩
  ordered := by
    refine List.pairwise_map.mpr (h.ordered.imp_of_mem ?_)
    intro a b ha hb hab
    exact totalRank_quantize_le (h.finite a ha).1 (h.finite b hb).1 hab

/-- Rounding does not uncover an end of the process. -/
theorem Covers.map_rounded (h : Covers points) (hfinite : ∀ p ∈ points, p.IsFinite) :
    Covers (points.map KeyPoint.rounded) := by
  constructor
  · intro q hq
    rw [List.head?_map] at hq
    obtain ⟨p, hp, rfl⟩ := Option.map_eq_some_iff.mp hq
    calc (Line.quantize p.x).totalRank
        ≤ (Line.quantize processStart).totalRank :=
          totalRank_quantize_le (hfinite p (List.mem_of_mem_head? hp)).1 isFinite_processStart
            (h.head p hp)
      _ = processStart.totalRank := by rw [quantize_processStart]
  · intro q hq
    rw [List.getLast?_map] at hq
    obtain ⟨p, hp, rfl⟩ := Option.map_eq_some_iff.mp hq
    calc processEnd.totalRank
        = (Line.quantize processEnd).totalRank := by rw [quantize_processEnd]
      _ ≤ (Line.quantize p.x).totalRank :=
          totalRank_quantize_le isFinite_processEnd (hfinite p (List.mem_of_mem_getLast? hp)).1
            (h.last p hp)

end Curves

/-! ## Ramps -/

section Ramps

variable {first last : Double}

/-- A point where a ramp starts or ends, between two places. -/
def IsRampPoint (low high : Double) (p : KeyPoint) : Prop :=
  p.IsFinite ∧ low.totalRank ≤ p.x.totalRank ∧ p.x.totalRank ≤ high.totalRank

theorem isFinite_noStrength : (ofNat 0 : Double).isFinite = true := isFinite_ofNat (by decide)

theorem isRampPoint_of_between {low high x : Double} (hlow : low.isFinite = true)
    (hhigh : high.isFinite = true) (hlowx : low.totalRank ≤ x.totalRank)
    (hxhigh : x.totalRank ≤ high.totalRank) : IsRampPoint low high ⟨x, ofNat 0⟩ :=
  ⟨⟨isFinite_of_between hlow hhigh hlowx hxhigh, isFinite_noStrength⟩, hlowx, hxhigh⟩

theorem leadIn_eq (first : Double) :
    leadIn first =
      if processStart.less first then
        ⟨processStart, ofNat 0⟩ ::
          if rampWidth.less first then
            [⟨if (first - rampWidth).less processStart then processStart else first - rampWidth,
              ofNat 0⟩]
          else []
      else [] :=
  rfl

theorem leadOut_eq (last : Double) :
    leadOut last =
      if last.less processEnd then
        (if last.less (processEnd - rampWidth) then
          [⟨if processEnd.less (last + rampWidth) then processEnd else last + rampWidth, ofNat 0⟩]
        else []) ++ [⟨processEnd, ofNat 0⟩]
      else [] :=
  rfl

/-- A curve that starts with the process has no ramp to it; else the ramp starts
with the process, and there may be a point between its start and the curve. -/
theorem leadIn_cases (hfirst : first.isFinite = true) :
    (first.totalRank ≤ processStart.totalRank ∧ leadIn first = []) ∨
      (processStart.totalRank < first.totalRank ∧
        ∃ more, leadIn first = ⟨processStart, ofNat 0⟩ :: more ∧
          more.Pairwise KeyPoint.NoLater ∧ ∀ p ∈ more, IsRampPoint processStart first p) := by
  have hless := start_less_iff (isNaN_of_isFinite hfirst)
  rw [leadIn_eq]
  by_cases hstart : processStart.less first = true
  · refine Or.inr ⟨hless.mp hstart, ?_⟩
    rw [if_pos hstart]
    refine ⟨_, rfl, ?_⟩
    by_cases hfar : rampWidth.less first = true
    · have hlow : processStart.totalRank ≤ (first - rampWidth).totalRank :=
        totalRank_processStart ▸
          totalRank_sub_nonneg hfirst isFinite_rampWidth rampWidth_nonneg hfar
      have hhigh : (first - rampWidth).totalRank ≤ first.totalRank :=
        totalRank_sub_le hfirst isFinite_rampWidth rampWidth_nonneg
      have hself : processStart.totalRank ≤ first.totalRank := hlow.trans hhigh
      rw [if_pos hfar]
      refine ⟨List.pairwise_singleton .., fun p hp => ?_⟩
      obtain rfl := List.mem_singleton.mp hp
      split
      · exact isRampPoint_of_between isFinite_processStart hfirst le_rfl hself
      · exact isRampPoint_of_between isFinite_processStart hfirst hlow hhigh
    · rw [if_neg hfar]
      exact ⟨List.Pairwise.nil, fun p hp => absurd hp List.not_mem_nil⟩
  · refine Or.inl ⟨?_, if_neg hstart⟩
    rw [hless] at hstart
    omega

/-- The same at the other end. -/
theorem leadOut_cases (hlast : last.isFinite = true) :
    (processEnd.totalRank ≤ last.totalRank ∧ leadOut last = []) ∨
      (last.totalRank < processEnd.totalRank ∧
        ∃ more, leadOut last = more ++ [⟨processEnd, ofNat 0⟩] ∧
          more.Pairwise KeyPoint.NoLater ∧ ∀ p ∈ more, IsRampPoint last processEnd p) := by
  have hless := less_end_iff (isNaN_of_isFinite hlast)
  rw [leadOut_eq]
  by_cases hend : last.less processEnd = true
  · have hself : last.totalRank ≤ processEnd.totalRank := (hless.mp hend).le
    refine Or.inr ⟨hless.mp hend, ?_⟩
    rw [if_pos hend]
    refine ⟨_, rfl, ?_⟩
    by_cases hfar : last.less (processEnd - rampWidth) = true
    · have hlow : last.totalRank ≤ (last + rampWidth).totalRank :=
        totalRank_le_add hlast isFinite_rampWidth rampWidth_nonneg
      rw [if_pos hfar]
      refine ⟨List.pairwise_singleton .., fun p hp => ?_⟩
      obtain rfl := List.mem_singleton.mp hp
      split
      · exact isRampPoint_of_between hlast isFinite_processEnd hself le_rfl
      · rename_i hpast
        rw [end_less_iff (isNaN_add hlast isFinite_rampWidth)] at hpast
        exact isRampPoint_of_between hlast isFinite_processEnd hlow (not_lt.mp hpast)
    · rw [if_neg hfar]
      exact ⟨List.Pairwise.nil, fun p hp => absurd hp List.not_mem_nil⟩
  · refine Or.inl ⟨?_, if_neg hend⟩
    rw [hless] at hend
    omega

end Ramps

/-! ## Padding -/

section Padding

variable {points : List KeyPoint}

theorem padPoints_eq {first last : KeyPoint} (hfirst : points.head? = some first)
    (hlast : points.getLast? = some last) :
    padPoints points = leadIn first.x ++ points ++ leadOut last.x := by
  simp only [padPoints, hfirst, hlast]

theorem IsCurve.exists_ends (h : IsCurve points) :
    ∃ first last, points.head? = some first ∧ points.getLast? = some last ∧
      first.IsFinite ∧ last.IsFinite := by
  refine ⟨points.head h.ne_nil, points.getLast h.ne_nil, List.head?_eq_some_head h.ne_nil,
    List.getLast?_eq_some_getLast h.ne_nil, ?_, ?_⟩
  · exact h.finite _ (List.head_mem h.ne_nil)
  · exact h.finite _ (List.getLast_mem h.ne_nil)

/-- A curve that covers the process is not padded. -/
theorem padPoints_of_covers (hcurve : IsCurve points) (hcovers : Covers points) :
    padPoints points = points := by
  obtain ⟨first, last, hfirst, hlast, hfirstFinite, hlastFinite⟩ := hcurve.exists_ends
  have hlow := hcovers.head first hfirst
  have hhigh := hcovers.last last hlast
  have hin : leadIn first.x = [] := by
    rcases leadIn_cases hfirstFinite.1 with ⟨-, hnil⟩ | ⟨hlate, -⟩
    · exact hnil
    · omega
  have hout : leadOut last.x = [] := by
    rcases leadOut_cases hlastFinite.1 with ⟨-, hnil⟩ | ⟨hearly, -⟩
    · exact hnil
    · omega
  rw [padPoints_eq hfirst hlast, hin, hout, List.nil_append, List.append_nil]

theorem IsCurve.first_noLater (h : IsCurve points) {first p : KeyPoint}
    (hfirst : points.head? = some first) (hp : p ∈ points) : first.NoLater p := by
  obtain ⟨rest, rfl⟩ := List.head?_eq_some_iff.mp hfirst
  rcases List.mem_cons.mp hp with rfl | hrest
  · exact le_rfl
  · exact List.rel_of_pairwise_cons h.ordered hrest

theorem IsCurve.noLater_last (h : IsCurve points) {last p : KeyPoint}
    (hlast : points.getLast? = some last) (hp : p ∈ points) : p.NoLater last := by
  obtain ⟨before, rfl⟩ := List.getLast?_eq_some_iff.mp hlast
  rcases List.mem_append.mp hp with hbefore | hself
  · exact (List.pairwise_append.mp h.ordered).2.2 p hbefore last (List.mem_singleton_self last)
  · exact (List.mem_singleton.mp hself) ▸ le_rfl

/-- The ramp before a curve makes it start with the process. -/
theorem leadIn_append (h : IsCurve points) {first : KeyPoint} (hfirst : points.head? = some first) :
    IsCurve (leadIn first.x ++ points) ∧
      ∀ p ∈ (leadIn first.x ++ points).head?, p.x.totalRank ≤ processStart.totalRank := by
  have hfinite := h.finite first (List.mem_of_mem_head? hfirst)
  rcases leadIn_cases hfinite.1 with ⟨hlow, hnil⟩ | ⟨hlate, more, hramp, hmore, hbetween⟩
  · rw [hnil, List.nil_append]
    refine ⟨h, fun p hp => ?_⟩
    obtain rfl := Option.some.inj (hfirst.symm.trans hp)
    exact hlow
  · rw [hramp]
    refine ⟨⟨by simp, ?_, ?_⟩, ?_⟩
    · intro p hp
      rcases List.mem_append.mp hp with hin | hin
      · rcases List.mem_cons.mp hin with rfl | hin
        · exact ⟨isFinite_processStart, isFinite_noStrength⟩
        · exact (hbetween p hin).1
      · exact h.finite p hin
    · refine List.pairwise_append.mpr ⟨?_, h.ordered, ?_⟩
      · exact List.pairwise_cons.mpr ⟨fun p hp => (hbetween p hp).2.1, hmore⟩
      · intro p hp q hq
        refine le_trans ?_ (h.first_noLater hfirst hq)
        rcases List.mem_cons.mp hp with rfl | hin
        · exact hlate.le
        · exact (hbetween p hin).2.2
    · intro p hp
      obtain rfl := Option.some.inj hp
      exact le_rfl

/-- The ramp after a curve makes it end with the process. -/
theorem append_leadOut (h : IsCurve points) {last : KeyPoint}
    (hlast : points.getLast? = some last) :
    IsCurve (points ++ leadOut last.x) ∧
      ∀ p ∈ (points ++ leadOut last.x).getLast?, processEnd.totalRank ≤ p.x.totalRank := by
  have hfinite := h.finite last (List.mem_of_mem_getLast? hlast)
  rcases leadOut_cases hfinite.1 with ⟨hhigh, hnil⟩ | ⟨hearly, more, hramp, hmore, hbetween⟩
  · rw [hnil, List.append_nil]
    refine ⟨h, fun p hp => ?_⟩
    obtain rfl := Option.some.inj (hlast.symm.trans hp)
    exact hhigh
  · rw [hramp]
    refine ⟨⟨by simp, ?_, ?_⟩, ?_⟩
    · intro p hp
      rcases List.mem_append.mp hp with hin | hin
      · exact h.finite p hin
      · rcases List.mem_append.mp hin with hin | hin
        · exact (hbetween p hin).1
        · rw [List.mem_singleton.mp hin]
          exact ⟨isFinite_processEnd, isFinite_noStrength⟩
    · refine List.pairwise_append.mpr ⟨h.ordered, ?_, ?_⟩
      · refine List.pairwise_append.mpr ⟨hmore, List.pairwise_singleton .., ?_⟩
        intro p hp q hq
        rw [List.mem_singleton.mp hq]
        exact (hbetween p hp).2.2
      · intro p hp q hq
        refine le_trans (h.noLater_last hlast hp) ?_
        rcases List.mem_append.mp hq with hin | hin
        · exact (hbetween q hin).2.1
        · rw [List.mem_singleton.mp hin]
          exact hearly.le
    · intro p hp
      rw [← List.append_assoc, List.getLast?_concat] at hp
      obtain rfl := Option.some.inj hp
      exact le_rfl

/-- **A padded curve is a curve, and it covers the process.** -/
theorem padPoints_spec (h : IsCurve points) :
    IsCurve (padPoints points) ∧ Covers (padPoints points) := by
  obtain ⟨first, last, hfirst, hlast, -, -⟩ := h.exists_ends
  obtain ⟨hfront, hhead⟩ := leadIn_append h hfirst
  have hfrontLast : (leadIn first.x ++ points).getLast? = some last := by
    rw [List.getLast?_append_of_ne_nil _ h.ne_nil, hlast]
  obtain ⟨hwhole, hend⟩ := append_leadOut hfront hfrontLast
  rw [padPoints_eq hfirst hlast]
  refine ⟨hwhole, fun p hp => hhead p ?_, hend⟩
  rwa [List.head?_append_of_ne_nil _ hfront.ne_nil] at hp

/-- **A curve that was padded and rounded is not padded again.** -/
theorem padPoints_map_rounded (h : IsCurve points) :
    padPoints ((padPoints points).map KeyPoint.rounded) =
      (padPoints points).map KeyPoint.rounded :=
  padPoints_of_covers (padPoints_spec h).1.map_rounded
    ((padPoints_spec h).2.map_rounded (padPoints_spec h).1.finite)

end Padding

end LoraSchedule
