import LoraSchedule.Proofs.Curve
import LoraSchedule.Proofs.Number.Values

/-!
# What padding adds

At either end a curve is in one of three regimes: it reaches the end of the
process or passes it, it stays within one ramp of it, or it stays further away
(`leadIn_regimes`, `leadOut_regimes`).  Nothing is added in the first, the end
itself in the second, and in the third also a point one ramp away from the
curve.  Points ascend as numbers do here, so that both zeros are one place.

`padPoints_continues` puts the two ends together.  The end of the process less a
ramp is rounded down: a curve that ends just there is further away than a ramp,
and is taken to be within one (`ramp_out_missing`).  No other number lies
between (`less_rampOut_iff`).

A padded list spans the process from end to end just if none of its points was
outside (`spansProcess_padPoints_iff`).
-/

namespace LoraSchedule

open LoraSchedule.Number (Binary Double)
open LoraSchedule.Number.Binary

/-! ## Ascending places -/

/-- Points in ascending order of their places, as numbers. -/
def PlacesAscend (points : List KeyPoint) : Prop :=
  points.Pairwise fun a b => a.x.atMost b.x = true

instance (points : List KeyPoint) : Decidable (PlacesAscend points) :=
  inferInstanceAs (Decidable (points.Pairwise _))

/-- A point whose place is finite and lies between two others. -/
structure KeyPoint.IsBetween (low high : Double) (p : KeyPoint) : Prop where
  finite : p.x.isFinite = true
  low_le : low.toUnits ≤ p.x.toUnits
  le_high : p.x.toUnits ≤ high.toUnits

theorem PlacesAscend.append {front back : List KeyPoint} (hfront : PlacesAscend front)
    (hback : PlacesAscend back) (hfinite : ∀ p ∈ front ++ back, p.x.isFinite = true)
    (hle : ∀ p ∈ front, ∀ q ∈ back, p.x.toUnits ≤ q.x.toUnits) : PlacesAscend (front ++ back) := by
  refine List.pairwise_append.mpr ⟨hfront, hback, ?_⟩
  intro p hp q hq
  apply (atMost_iff (hfinite p ?_) (hfinite q ?_)).mpr (hle p hp q hq)
  · exact List.mem_append_left back hp
  · exact List.mem_append_right front hq

/-- The points of an ascending list lie between its ends. -/
theorem PlacesAscend.isBetween {points : List KeyPoint} {first last p : KeyPoint}
    (h : PlacesAscend points) (hfinite : ∀ p ∈ points, p.x.isFinite = true)
    (hfirst : points.head? = some first) (hlast : points.getLast? = some last)
    (hp : p ∈ points) : p.IsBetween first.x last.x := by
  have hle : ∀ {a b : KeyPoint}, a ∈ points → b ∈ points → a = b ∨ a.x.atMost b.x = true →
      a.x.toUnits ≤ b.x.toUnits := by
    rintro a b ha hb (rfl | hle)
    · exact le_rfl
    · exact (atMost_iff (hfinite a ha) (hfinite b hb)).mp hle
  refine ⟨hfinite p hp, hle (List.mem_of_mem_head? hfirst) hp ?_,
    hle hp (List.mem_of_mem_getLast? hlast) ?_⟩
  · obtain ⟨rest, rfl⟩ := List.head?_eq_some_iff.mp hfirst
    refine (List.mem_cons.mp hp).imp Eq.symm ?_
    exact List.rel_of_pairwise_cons h
  · obtain ⟨before, rfl⟩ := List.getLast?_eq_some_iff.mp hlast
    rcases List.mem_append.mp hp with hbefore | hself
    · exact Or.inr ((List.pairwise_append.mp h).2.2 p hbefore last (List.mem_singleton_self last))
    · exact Or.inl (List.mem_singleton.mp hself)

/-! ## Where the last ramp starts -/

/-- One ramp before the end of the process, rounded. -/
def rampOut : Double := processEnd - rampWidth

theorem isFinite_rampOut : rampOut.isFinite = true := by decide +kernel

theorem toUnits_processStart : processStart.toUnits = 0 := by decide +kernel

theorem toUnits_rampWidth_nonneg : 0 ≤ rampWidth.toUnits := by decide +kernel

/-- A ramp that starts there is not at the end of the process after its width. -/
theorem rampOut_lt : rampOut.toUnits < processEnd.toUnits - rampWidth.toUnits := by decide +kernel

/-- A ramp that starts at the next number is. -/
theorem processEnd_le_succ_rampOut :
    processEnd.toUnits - rampWidth.toUnits ≤
      Number.Format.double.units (rampOut.magnitude + 1) := by
  decide +kernel

section Regimes

variable {first last : Double}

/-- **A number comes before the last ramp just if it is more than a ramp away
from the end, and not the start of that ramp itself.** -/
theorem less_rampOut_iff (hlast : last.isFinite = true) :
    last.less rampOut = true ↔
      rampWidth.toUnits < processEnd.toUnits - last.toUnits ∧ last ≠ rampOut := by
  rw [lt_sub_comm]
  exact less_iff_of_succ hlast isFinite_rampOut (by decide +kernel) (by decide +kernel) rampOut_lt
    processEnd_le_succ_rampOut

/-! ## The regimes of the ends -/

/-- How far a curve is from the start of the process, and what is put before it. -/
theorem leadIn_regimes (hfirst : first.isFinite = true) :
    (first.toUnits ≤ processStart.toUnits ∧ leadIn first = []) ∨
      (processStart.toUnits < first.toUnits ∧ first.toUnits ≤ rampWidth.toUnits ∧
        leadIn first = [⟨processStart, ofNat 0⟩]) ∨
      (rampWidth.toUnits < first.toUnits ∧
        leadIn first = [⟨processStart, ofNat 0⟩, ⟨first - rampWidth, ofNat 0⟩] ∧
        IsNearest (first - rampWidth) (first.toUnits - rampWidth.toUnits)) := by
  have hstart := less_iff isFinite_processStart hfirst
  have hramp := less_iff isFinite_rampWidth hfirst
  rw [leadIn_eq]
  by_cases hin : processStart.less first = true
  · rw [if_pos hin]
    by_cases hfar : rampWidth.less first = true
    · have hroom : processStart.toUnits ≤ first.toUnits - rampWidth.toUnits := by
        rw [toUnits_processStart]
        exact sub_nonneg.mpr (hramp.mp hfar).le
      have hless : first.toUnits - rampWidth.toUnits ≤ first.toUnits :=
        sub_le_self _ toUnits_rampWidth_nonneg
      have hnear : IsNearest (first - rampWidth) (first.toUnits - rampWidth.toUnits) :=
        isNearest_sub_of_le hfirst isFinite_rampWidth isFinite_processStart hfirst hroom hless
      -- the difference is not negative, so nothing is cut off
      have hkept : ¬(first - rampWidth).less processStart = true := by
        rw [less_iff hnear.finite isFinite_processStart, not_lt]
        exact hnear.ge isFinite_processStart hroom
      rw [if_pos hfar, if_neg hkept]
      exact Or.inr (Or.inr ⟨hramp.mp hfar, rfl, hnear⟩)
    · rw [if_neg hfar]
      exact Or.inr (Or.inl ⟨hstart.mp hin, not_lt.mp (mt hramp.mpr hfar), rfl⟩)
  · rw [if_neg hin]
    exact Or.inl ⟨not_lt.mp (mt hstart.mpr hin), rfl⟩

/-- The same at the other end. -/
theorem leadOut_regimes (hlast : last.isFinite = true) :
    (processEnd.toUnits ≤ last.toUnits ∧ leadOut last = []) ∨
      (last.toUnits < processEnd.toUnits ∧ ¬last.less rampOut = true ∧
        leadOut last = [⟨processEnd, ofNat 0⟩]) ∨
      (last.less rampOut = true ∧
        leadOut last = [⟨last + rampWidth, ofNat 0⟩, ⟨processEnd, ofNat 0⟩] ∧
        IsNearest (last + rampWidth) (last.toUnits + rampWidth.toUnits)) := by
  have hend := less_iff hlast isFinite_processEnd
  rw [leadOut_eq]
  by_cases hin : last.less processEnd = true
  · rw [if_pos hin]
    by_cases hfar : last.less (processEnd - rampWidth) = true
    · have hroom : last.toUnits + rampWidth.toUnits ≤ processEnd.toUnits :=
        (lt_sub_iff_add_lt'.mp ((less_rampOut_iff hlast).mp hfar).1).le
      have hmore : last.toUnits ≤ last.toUnits + rampWidth.toUnits :=
        le_add_of_nonneg_right toUnits_rampWidth_nonneg
      have hnear : IsNearest (last + rampWidth) (last.toUnits + rampWidth.toUnits) :=
        isNearest_add_of_le hlast isFinite_rampWidth hlast isFinite_processEnd hmore hroom
      have hkept : ¬processEnd.less (last + rampWidth) = true := by
        rw [less_iff isFinite_processEnd hnear.finite, not_lt]
        exact hnear.le isFinite_processEnd hroom
      rw [if_pos hfar, if_neg hkept]
      exact Or.inr (Or.inr ⟨hfar, rfl, hnear⟩)
    · rw [if_neg hfar]
      exact Or.inr (Or.inl ⟨hend.mp hin, hfar, rfl⟩)
  · rw [if_neg hin]
    exact Or.inl ⟨not_lt.mp (mt hend.mpr hin), rfl⟩

/-! ## What is added at the ends -/

/-- What may stand before a curve that starts at `first`. -/
structure LeadsIn (first : Double) (added : List KeyPoint) : Prop where
  length_le : added.length ≤ 2
  noStrength : ∀ p ∈ added, p.y = ofNat 0
  eq_nil_iff : added = [] ↔ first.toUnits ≤ processStart.toUnits
  starts : ∀ p ∈ added.head?, p.x = processStart
  /-- A second point is added just if the curve is more than a ramp away from the start. -/
  near_iff : added.length = 2 ↔ rampWidth.toUnits < first.toUnits - processStart.toUnits
  near : added.length = 2 →
    ∀ p ∈ added.getLast?, IsNearest p.x (first.toUnits - rampWidth.toUnits)

/-- What may stand after a curve that ends at `last`. -/
structure LeadsOut (last : Double) (added : List KeyPoint) : Prop where
  length_le : added.length ≤ 2
  noStrength : ∀ p ∈ added, p.y = ofNat 0
  eq_nil_iff : added = [] ↔ processEnd.toUnits ≤ last.toUnits
  ends : ∀ p ∈ added.getLast?, p.x = processEnd
  /-- A second point is added just if the curve is more than a ramp away from the end, except
  from the one number that is rounded there. -/
  near_iff : added.length = 2 ↔
    rampWidth.toUnits < processEnd.toUnits - last.toUnits ∧ last ≠ rampOut
  near : added.length = 2 →
    ∀ p ∈ added.head?, IsNearest p.x (last.toUnits + rampWidth.toUnits)

theorem leadsIn_leadIn (hfirst : first.isFinite = true) : LeadsIn first (leadIn first) := by
  have hwidth : processStart.toUnits ≤ rampWidth.toUnits :=
    toUnits_processStart.trans_le toUnits_rampWidth_nonneg
  have hgap : rampWidth.toUnits < first.toUnits - processStart.toUnits ↔
      rampWidth.toUnits < first.toUnits := by
    rw [toUnits_processStart, sub_zero]
  rcases leadIn_regimes hfirst with ⟨hflush, hadded⟩ | ⟨hin, hclose, hadded⟩ | ⟨hfar, hadded, hnear⟩
  · have hnofar : ¬rampWidth.toUnits < first.toUnits := not_lt.mpr (hflush.trans hwidth)
    constructor <;> simp [hadded, hflush, hgap, hnofar]
  · constructor <;> simp [hadded, hin, hgap, hclose]
  · constructor <;> simp [hadded, hwidth.trans_lt hfar, hgap, hfar, hnear]

theorem leadsOut_leadOut (hlast : last.isFinite = true) : LeadsOut last (leadOut last) := by
  have hfar := less_rampOut_iff hlast
  rcases leadOut_regimes hlast with
    ⟨hflush, hadded⟩ | ⟨hin, hclose, hadded⟩ | ⟨hapart, hadded, hnear⟩
  · have hnofar : ¬rampWidth.toUnits < processEnd.toUnits - last.toUnits := by
      rw [not_lt]
      exact (sub_nonpos.mpr hflush).trans toUnits_rampWidth_nonneg
    constructor <;> simp [hadded, hflush, hnofar]
  · constructor <;> simp [hadded, hin, ← hfar, hclose]
  · have hin : last.toUnits < processEnd.toUnits :=
      sub_pos.mp (toUnits_rampWidth_nonneg.trans_lt (hfar.mp hapart).1)
    constructor <;> simp [hadded, hin, ← hfar, hapart, hnear]

/-- What is put before a curve ascends from the start of the process to the curve. -/
theorem placesAscend_leadIn (hfirst : first.isFinite = true) :
    PlacesAscend (leadIn first) ∧ ∀ p ∈ leadIn first, p.IsBetween processStart first := by
  have hstart : ∀ {y : Double}, processStart.toUnits ≤ first.toUnits →
      KeyPoint.IsBetween processStart first ⟨processStart, y⟩ :=
    fun hle => ⟨isFinite_processStart, le_rfl, hle⟩
  rcases leadIn_regimes hfirst with ⟨-, hadded⟩ | ⟨hin, -, hadded⟩ | ⟨hfar, hadded, hnear⟩
  · rw [hadded]
    exact ⟨List.Pairwise.nil, fun p hp => absurd hp List.not_mem_nil⟩
  · rw [hadded]
    exact ⟨List.pairwise_singleton .., List.forall_mem_singleton.mpr (hstart hin.le)⟩
  · have hroom : processStart.toUnits ≤ first.toUnits - rampWidth.toUnits := by
      rw [toUnits_processStart]
      exact sub_nonneg.mpr hfar.le
    have hbetween : KeyPoint.IsBetween processStart first ⟨first - rampWidth, ofNat 0⟩ :=
      ⟨hnear.finite, hnear.ge isFinite_processStart hroom,
        hnear.le hfirst (sub_le_self _ toUnits_rampWidth_nonneg)⟩
    rw [hadded]
    refine ⟨List.pairwise_pair.mpr ?_, List.forall_mem_cons.mpr ⟨?_, ?_⟩⟩
    · exact (atMost_iff isFinite_processStart hnear.finite).mpr hbetween.low_le
    · exact hstart (hbetween.low_le.trans hbetween.le_high)
    · exact List.forall_mem_singleton.mpr hbetween

/-- What is put after a curve ascends from the curve to the end of the process. -/
theorem placesAscend_leadOut (hlast : last.isFinite = true) :
    PlacesAscend (leadOut last) ∧ ∀ p ∈ leadOut last, p.IsBetween last processEnd := by
  have hend : ∀ {y : Double}, last.toUnits ≤ processEnd.toUnits →
      KeyPoint.IsBetween last processEnd ⟨processEnd, y⟩ :=
    fun hle => ⟨isFinite_processEnd, hle, le_rfl⟩
  rcases leadOut_regimes hlast with ⟨-, hadded⟩ | ⟨hin, -, hadded⟩ | ⟨hfar, hadded, hnear⟩
  · rw [hadded]
    exact ⟨List.Pairwise.nil, fun p hp => absurd hp List.not_mem_nil⟩
  · rw [hadded]
    exact ⟨List.pairwise_singleton .., List.forall_mem_singleton.mpr (hend hin.le)⟩
  · have hroom : last.toUnits + rampWidth.toUnits ≤ processEnd.toUnits :=
      (lt_sub_iff_add_lt'.mp ((less_rampOut_iff hlast).mp hfar).1).le
    have hbetween : KeyPoint.IsBetween last processEnd ⟨last + rampWidth, ofNat 0⟩ :=
      ⟨hnear.finite, hnear.ge hlast (le_add_of_nonneg_right toUnits_rampWidth_nonneg),
        hnear.le isFinite_processEnd hroom⟩
    rw [hadded]
    refine ⟨List.pairwise_pair.mpr ?_, List.forall_mem_cons.mpr ⟨hbetween, ?_⟩⟩
    · exact (atMost_iff hnear.finite isFinite_processEnd).mpr hbetween.le_high
    · exact List.forall_mem_singleton.mpr (hend (hbetween.low_le.trans hbetween.le_high))

end Regimes

/-! ## Padded lists -/

section Padding

variable {points : List KeyPoint} {first last : KeyPoint}

/-- A list that reaches both ends of the process is not padded. -/
theorem padPoints_of_reaches (hfinite : ∀ p ∈ points, p.x.isFinite = true)
    (hfirst : points.head? = some first) (hlast : points.getLast? = some last)
    (hlow : first.x.toUnits ≤ processStart.toUnits) (hhigh : processEnd.toUnits ≤ last.x.toUnits) :
    padPoints points = points := by
  have hin : leadIn first.x = [] :=
    (leadsIn_leadIn (hfinite first (List.mem_of_mem_head? hfirst))).eq_nil_iff.mpr hlow
  have hout : leadOut last.x = [] :=
    (leadsOut_leadOut (hfinite last (List.mem_of_mem_getLast? hlast))).eq_nil_iff.mpr hhigh
  rw [padPoints_eq hfirst hlast, hin, hout, List.nil_append, List.append_nil]

/-- Padding keeps finite places in ascending order. -/
theorem placesAscend_padPoints (hascend : PlacesAscend points)
    (hfinite : ∀ p ∈ points, p.x.isFinite = true) (hfirst : points.head? = some first)
    (hlast : points.getLast? = some last) :
    PlacesAscend (padPoints points) ∧ ∀ p ∈ padPoints points, p.x.isFinite = true := by
  obtain ⟨hin, hbefore⟩ := placesAscend_leadIn (hfinite first (List.mem_of_mem_head? hfirst))
  obtain ⟨hout, hafter⟩ := placesAscend_leadOut (hfinite last (List.mem_of_mem_getLast? hlast))
  have hbetween : ∀ p ∈ points, p.IsBetween first.x last.x :=
    fun p hp => hascend.isBetween hfinite hfirst hlast hp
  have hends := (hbetween first (List.mem_of_mem_head? hfirst)).le_high
  have hback : ∀ q ∈ points ++ leadOut last.x,
      q.x.isFinite = true ∧ first.x.toUnits ≤ q.x.toUnits := by
    intro q hq
    rcases List.mem_append.mp hq with hq | hq
    · exact ⟨hfinite q hq, (hbetween q hq).low_le⟩
    · exact ⟨(hafter q hq).finite, hends.trans (hafter q hq).low_le⟩
  have hall : ∀ p ∈ leadIn first.x ++ (points ++ leadOut last.x), p.x.isFinite = true := by
    intro p hp
    rcases List.mem_append.mp hp with hp | hp
    · exact (hbefore p hp).finite
    · exact (hback p hp).1
  rw [padPoints_eq hfirst hlast, List.append_assoc]
  refine ⟨hin.append (hascend.append hout ?_ ?_) hall ?_, hall⟩
  · exact fun q hq => (hback q hq).1
  · exact fun p hp q hq => (hbetween p hp).le_high.trans (hafter q hq).low_le
  · exact fun p hp q hq => (hbefore p hp).le_high.trans (hback q hq).2

/-- The first point of a padded list is at the start of the process, or the list's
own and no later; likewise the last point. -/
theorem ends_padPoints (hfinite : ∀ p ∈ points, p.x.isFinite = true)
    (hfirst : points.head? = some first) (hlast : points.getLast? = some last) :
    (∃ start ∈ (padPoints points).head?, start.x.toUnits ≤ processStart.toUnits ∧
      (processStart.toUnits < first.x.toUnits → start.x = processStart)) ∧
    ∃ stop ∈ (padPoints points).getLast?, processEnd.toUnits ≤ stop.x.toUnits ∧
      (last.x.toUnits < processEnd.toUnits → stop.x = processEnd) := by
  have hin := leadsIn_leadIn (hfinite first (List.mem_of_mem_head? hfirst))
  have hout := leadsOut_leadOut (hfinite last (List.mem_of_mem_getLast? hlast))
  rw [padPoints_eq hfirst hlast]
  constructor
  · cases hadded : leadIn first.x with
    | nil =>
        have hlow := hin.eq_nil_iff.mp hadded
        exact ⟨first, by simp [hfirst], hlow, fun hlt => absurd hlt (not_lt.mpr hlow)⟩
    | cons start rest =>
        have hstart : start.x = processStart := hin.starts start (by simp [hadded])
        exact ⟨start, by simp, by rw [hstart], fun _ => hstart⟩
  · rcases (leadOut last.x).eq_nil_or_concat' with hadded | ⟨front, stop, hadded⟩
    · have hhigh := hout.eq_nil_iff.mp hadded
      exact ⟨last, by simp [hadded, hlast], hhigh, fun hlt => absurd hlt (not_lt.mpr hhigh)⟩
    · have hstop : stop.x = processEnd := hout.ends stop (by simp [hadded])
      refine ⟨stop, ?_, by rw [hstop], fun _ => hstop⟩
      rw [hadded, ← List.append_assoc, List.getLast?_concat, Option.mem_some_iff]

/-- **Padding a list of points with finite, ascending places.**  At most two points
of strength zero come before the list and at most two after it, as `LeadsIn` and
`LeadsOut` say: none beyond an end that the list reaches, and besides the end of
the process one that is a ramp away from the list, if that leaves room.  The
places still ascend, from the start of the process, or below it, to its end, or
above it; and nothing is left to pad. -/
theorem padPoints_continues (hfinite : ∀ p ∈ points, p.x.isFinite = true)
    (hascend : PlacesAscend points) (hfirst : points.head? = some first)
    (hlast : points.getLast? = some last) :
    (∃ before after, padPoints points = before ++ points ++ after ∧ LeadsIn first.x before ∧
      LeadsOut last.x after) ∧
    PlacesAscend (padPoints points) ∧
    (∃ start ∈ (padPoints points).head?, start.x.toUnits ≤ processStart.toUnits ∧
      (processStart.toUnits < first.x.toUnits → start.x = processStart)) ∧
    (∃ stop ∈ (padPoints points).getLast?, processEnd.toUnits ≤ stop.x.toUnits ∧
      (last.x.toUnits < processEnd.toUnits → stop.x = processEnd)) ∧
    padPoints (padPoints points) = padPoints points := by
  obtain ⟨hpadded, hpaddedFinite⟩ := placesAscend_padPoints hascend hfinite hfirst hlast
  obtain ⟨⟨start, hstart, hlow, hstartEq⟩, stop, hstop, hhigh, hstopEq⟩ :=
    ends_padPoints hfinite hfirst hlast
  refine ⟨⟨leadIn first.x, leadOut last.x, padPoints_eq hfirst hlast, ?_, ?_⟩, hpadded,
    ⟨start, hstart, hlow, hstartEq⟩, ⟨stop, hstop, hhigh, hstopEq⟩, ?_⟩
  · exact leadsIn_leadIn (hfinite first (List.mem_of_mem_head? hfirst))
  · exact leadsOut_leadOut (hfinite last (List.mem_of_mem_getLast? hlast))
  · exact padPoints_of_reaches hpaddedFinite hstart hstop hlow hhigh

end Padding

/-! ## Curves within the process -/

/-- A place from the start to the end of the process. -/
def InProcess (x : Double) : Prop := processStart.atMost x = true ∧ x.atMost processEnd = true

instance (x : Double) : Decidable (InProcess x) := inferInstanceAs (Decidable (_ ∧ _))

/-- The places of points ascend from the very start of the process, which either
zero is, to its very end. -/
structure SpansProcess (points : List KeyPoint) : Prop where
  ascend : PlacesAscend points
  inside : ∀ p ∈ points, InProcess p.x
  starts : ∃ p ∈ points.head?, p.x.isZero = true
  ends : ∃ p ∈ points.getLast?, p.x = processEnd

theorem inProcess_iff {x : Double} (hx : x.isFinite = true) :
    InProcess x ↔ processStart.toUnits ≤ x.toUnits ∧ x.toUnits ≤ processEnd.toUnits := by
  rw [InProcess, atMost_iff isFinite_processStart hx, atMost_iff hx isFinite_processEnd]

theorem InProcess.isFinite {x : Double} (h : InProcess x) : x.isFinite = true :=
  isFinite_of_atMost isFinite_processStart isFinite_processEnd h.1 h.2

theorem InProcess.toUnits_bounds {x : Double} (h : InProcess x) :
    processStart.toUnits ≤ x.toUnits ∧ x.toUnits ≤ processEnd.toUnits :=
  (inProcess_iff h.isFinite).mp h

section Process

variable {points : List KeyPoint}

/-- Sorted points ascend as numbers. -/
theorem placesAscend_sortPoints (hfinite : ∀ p ∈ points, p.x.isFinite = true) :
    PlacesAscend (sortPoints points) := by
  refine (pairwise_sortPoints points).imp_of_mem ?_
  intro a b ha hb hab
  have hnan : ∀ {p}, p ∈ sortPoints points → p.x.isNaN = false :=
    fun hp => isNaN_of_isFinite (hfinite _ (mem_sortPoints.mp hp))
  exact atMost_of_totalRank_le (hnan ha) (hnan hb) (of_decide_eq_true hab)

theorem padPoints_eq_nil_iff : padPoints points = [] ↔ points = [] := by
  rcases eq_or_ne points [] with rfl | hne
  · simp [padPoints]
  · rw [padPoints_eq (List.head?_eq_some_head hne) (List.getLast?_eq_some_getLast hne)]
    simp [hne]

theorem mem_padPoints {p : KeyPoint} (hp : p ∈ points) : p ∈ padPoints points := by
  have hne : points ≠ [] := List.ne_nil_of_mem hp
  rw [padPoints_eq (List.head?_eq_some_head hne) (List.getLast?_eq_some_getLast hne)]
  exact List.mem_append_left _ (List.mem_append_right _ hp)

/-- What is added to points of the process stays in it. -/
theorem inProcess_padPoints (hinside : ∀ p ∈ points, InProcess p.x) :
    ∀ p ∈ padPoints points, InProcess p.x := by
  rcases eq_or_ne points [] with rfl | hne
  · exact hinside
  · have hfirst := hinside _ (List.head_mem hne)
    have hlast := hinside _ (List.getLast_mem hne)
    have hhigh := hfirst.toUnits_bounds.2
    have hlow := hlast.toUnits_bounds.1
    rw [padPoints_eq (List.head?_eq_some_head hne) (List.getLast?_eq_some_getLast hne)]
    intro p hp
    rcases List.mem_append.mp hp with hp | hp
    · rcases List.mem_append.mp hp with hp | hp
      · have hbetween := (placesAscend_leadIn hfirst.isFinite).2 p hp
        exact (inProcess_iff hbetween.finite).mpr
          ⟨hbetween.low_le, hbetween.le_high.trans hhigh⟩
      · exact hinside p hp
    · have hbetween := (placesAscend_leadOut hlast.isFinite).2 p hp
      exact (inProcess_iff hbetween.finite).mpr
        ⟨hlow.trans hbetween.low_le, hbetween.le_high⟩

/-- Points with finite places, sorted and padded, ascend from the start of the
process, or below it, to its end, or above it. -/
theorem padPoints_sortPoints_reaches (hne : points ≠ [])
    (hfinite : ∀ p ∈ points, p.x.isFinite = true) :
    PlacesAscend (padPoints (sortPoints points)) ∧
      (∃ start ∈ (padPoints (sortPoints points)).head?,
        start.x.toUnits ≤ processStart.toUnits) ∧
      ∃ stop ∈ (padPoints (sortPoints points)).getLast?,
        processEnd.toUnits ≤ stop.x.toUnits := by
  have hsorted : ∀ p ∈ sortPoints points, p.x.isFinite = true :=
    fun p hp => hfinite p (mem_sortPoints.mp hp)
  have hsortedNe : sortPoints points ≠ [] := mt sortPoints_eq_nil_iff.mp hne
  have hfirst := List.head?_eq_some_head hsortedNe
  have hlast := List.getLast?_eq_some_getLast hsortedNe
  obtain ⟨⟨start, hstart, hlow, -⟩, stop, hstop, hhigh, -⟩ := ends_padPoints hsorted hfirst hlast
  exact ⟨(placesAscend_padPoints (placesAscend_sortPoints hfinite) hsorted hfirst hlast).1,
    ⟨start, hstart, hlow⟩, stop, hstop, hhigh⟩

/-- **A padded list spans the process just if none of its points was outside.** -/
theorem spansProcess_padPoints_iff (hne : points ≠ []) :
    SpansProcess (padPoints (sortPoints points)) ↔ ∀ p ∈ points, InProcess p.x := by
  constructor
  · intro h p hp
    exact h.inside p (mem_padPoints (mem_sortPoints.mpr hp))
  · intro hinside
    have hpadded := inProcess_padPoints fun p hp => hinside p (mem_sortPoints.mp hp)
    obtain ⟨hascend, ⟨start, hstart, hlow⟩, stop, hstop, hhigh⟩ :=
      padPoints_sortPoints_reaches hne fun p hp => (hinside p hp).isFinite
    have hstartLow := (hpadded start (List.mem_of_mem_head? hstart)).toUnits_bounds.1
    have hstopHigh := (hpadded stop (List.mem_of_mem_getLast? hstop)).toUnits_bounds.2
    refine ⟨hascend, hpadded, ⟨start, hstart, ?_⟩, ⟨stop, hstop, ?_⟩⟩
    · exact isZero_iff.mpr ((le_antisymm hlow hstartLow).trans toUnits_processStart)
    · exact eq_of_toUnits_eq (le_antisymm hstopHigh hhigh) ends_spec.2.2.2.1

end Process

/-! ## Around the start of the last ramp -/

/-- A curve that ends where the last ramp starts. -/
def rampOutCurve : List KeyPoint :=
  [⟨ofDecimal ⟨false, 25, -2⟩, ofNat 1⟩, ⟨ofDecimal ⟨false, 25, -2⟩, ofNat 0⟩, ⟨rampOut, ofNat 1⟩]

/-- Two points are put before it, and only the end of the process after it. -/
theorem padPoints_continues_rampOutCurve :
    (∀ p ∈ rampOutCurve, p.x.isFinite = true) ∧ PlacesAscend rampOutCurve ∧
      (∃ before after, padPoints rampOutCurve = before ++ rampOutCurve ++ after ∧
        before.length = 2 ∧ after.length = 1) ∧
      padPoints (padPoints rampOutCurve) = padPoints rampOutCurve := by
  have hfinite : ∀ p ∈ rampOutCurve, p.x.isFinite = true := by decide +kernel
  have hascend : PlacesAscend rampOutCurve := by decide +kernel
  obtain ⟨⟨before, after, hpadded, hin, hout⟩, -, -, -, hagain⟩ :=
    padPoints_continues hfinite hascend rfl rfl
  have hfar : rampWidth.toUnits <
      (ofDecimal ⟨false, 25, -2⟩ : Double).toUnits - processStart.toUnits := by
    decide +kernel
  have hinside : ¬processEnd.toUnits ≤ rampOut.toUnits := by decide +kernel
  have hne : after.length ≠ 0 := fun hnil =>
    hinside (hout.eq_nil_iff.mp (List.length_eq_zero_iff.mp hnil))
  have hone : after.length ≠ 2 := fun htwo => (hout.near_iff.mp htwo).2 rfl
  have hle := hout.length_le
  exact ⟨hfinite, hascend, ⟨before, after, hpadded, hin.near_iff.mpr hfar, by omega⟩, hagain⟩

/-- **A ramp is missing after a curve that ends where the last ramp would start.**
It is more than a ramp away from the end, but only the end is added. -/
theorem ramp_out_missing :
    ¬ ∀ (points : List KeyPoint) (first last : KeyPoint), (∀ p ∈ points, p.IsFinite) →
      PlacesAscend points → points.head? = some first → points.getLast? = some last →
        ∃ before after, padPoints points = before ++ points ++ after ∧ after.length ≤ 2 ∧
          (after.length = 2 ↔ rampWidth.toUnits < processEnd.toUnits - last.x.toUnits) := by
  intro hall
  obtain ⟨p, hp⟩ : ∃ p : KeyPoint, p = ⟨rampOut, ofNat 1⟩ := ⟨_, rfl⟩
  have hfinite : ∀ q ∈ [p], q.IsFinite := by
    rw [hp]
    exact List.forall_mem_singleton.mpr ⟨isFinite_rampOut, isFinite_one⟩
  obtain ⟨before, after, hsplit, -, hiff⟩ :=
    hall [p] p p hfinite (List.pairwise_singleton ..) rfl rfl
  have hgap : rampWidth.toUnits < processEnd.toUnits - p.x.toUnits := by
    rw [hp]
    decide +kernel
  have hpadded : ∃ start near stop, padPoints [p] = [start, near, p, stop] ∧ near ≠ p := by
    rw [hp]
    exact ⟨⟨processStart, ofNat 0⟩, ⟨rampOut - rampWidth, ofNat 0⟩, ⟨processEnd, ofNat 0⟩,
      by decide +kernel⟩
  obtain ⟨start, near, stop, hpoints, hne⟩ := hpadded
  rw [hpoints] at hsplit
  have htwo := hiff.mpr hgap
  -- with two points after it, the curve would be the second point of four
  have hone : before.length = 1 := by
    have hlength := congrArg List.length hsplit
    simp only [List.length_append, List.length_cons, List.length_nil] at hlength
    omega
  obtain ⟨only, rfl⟩ := List.length_eq_one_iff.mp hone
  simp only [List.cons_append, List.nil_append, List.cons.injEq] at hsplit
  exact hne hsplit.2.1

end LoraSchedule
