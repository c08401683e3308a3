import LoraSchedule.Proofs.Padding
import LoraSchedule.Proofs.Resolution.Agreement
import LoraSchedule.Proofs.Schedule.Ramps

/-!
# The keyframes of a plan

The keyframes of a new hook are the points of an entry, sorted and padded.
Padding only adds what is missing at the ends, and does not cut off what lies
beyond them: so the keyframes span the process just if all points of the entry
lie within it (`resolve_keyframes`).  Nothing that reads points sees to that
(`keyframes_past_end`).

Of what is computed, a ramp stays within the process if its ends are in it.  Its
places are rounded on the way, which may take them out by less than a step of
the numbers at the end, and then to four decimals, which takes them back
(`Line.inProcess_of_ramp`).
-/

namespace LoraSchedule

open LoraSchedule.Number (Binary Double)
open LoraSchedule.Number.Binary

/-! ## Places of a ramp -/

namespace Line

/-- How far the numbers up to the end of the process are apart, at most. -/
def endStep : Nat := 2 ^ Number.Format.double.scaleOf processEnd.toUnits.natAbs 1

/-- The number next to the end of the process. -/
def pastEnd : Double := ⟨false, processEnd.magnitude + 1⟩

/-- As far before the start of the process. -/
def beforeStart : Double := processEnd - pastEnd

theorem beforeStart_spec : beforeStart.isFinite = true ∧ 0 < beforeStart.magnitude ∧
    beforeStart.toUnits = -(endStep : Int) ∧ quantize beforeStart = zero true := by
  decide +kernel

theorem pastEnd_spec : pastEnd.isFinite = true ∧ 0 < pastEnd.magnitude ∧
    pastEnd.toUnits = processEnd.toUnits + endStep ∧ quantize pastEnd = processEnd := by
  decide +kernel

theorem toUnits_negativeZero : (zero true : Double).toUnits = processStart.toUnits := by
  decide +kernel

/-- **What is less than a step outside of the process is rounded into it.** -/
theorem inProcess_quantize {x : Double} (hx : x.isFinite = true)
    (hlow : beforeStart.toUnits ≤ x.toUnits) (hhigh : x.toUnits ≤ pastEnd.toUnits) :
    InProcess (quantize x) := by
  have hnan : (quantize x).isNaN = false := isNaN_of_isFinite (isFinite_quantize hx)
  constructor
  · have hrank := totalRank_quantize_le beforeStart_spec.1 hx
      (totalRank_le_of_toUnits_le hlow (Or.inl beforeStart_spec.2.1))
    rw [beforeStart_spec.2.2.2] at hrank
    have hle := (atMost_iff (by decide) (isFinite_quantize hx)).mp
      (atMost_of_totalRank_le (by decide) hnan hrank)
    rw [toUnits_negativeZero] at hle
    exact (atMost_iff isFinite_processStart (isFinite_quantize hx)).mpr hle
  · have hrank := totalRank_quantize_le hx pastEnd_spec.1
      (totalRank_le_of_toUnits_le hhigh (Or.inr pastEnd_spec.2.1))
    rw [pastEnd_spec.2.2.2] at hrank
    exact atMost_of_totalRank_le hnan (isNaN_of_isFinite isFinite_processEnd) hrank

section Between

variable {first last share : Double} (hfirst : InProcess first) (hlast : InProcess last)

include hfirst hlast

/-- The difference of two places of the process is rounded by less than a step. -/
theorem dist_sub_le : (last - first).isFinite = true ∧
    ((last - first).toUnits - (last.toUnits - first.toUnits)).natAbs ≤ endStep := by
  have hends := And.intro hfirst.toUnits_bounds hlast.toUnits_bounds
  rw [toUnits_processStart] at hends
  have hlow : (neg processEnd).toUnits ≤ last.toUnits - first.toUnits := by
    rw [toUnits_neg]
    generalize processEnd.toUnits = stop at hends ⊢
    omega
  have hhigh : last.toUnits - first.toUnits ≤ processEnd.toUnits := by
    generalize processEnd.toUnits = stop at hends ⊢
    omega
  have hsmall : (last.toUnits - first.toUnits).natAbs ≤ processEnd.toUnits.natAbs := by
    generalize processEnd.toUnits = stop at hends ⊢
    omega
  have hnear := isNearest_sub_of_le hlast.isFinite hfirst.isFinite
    (isFinite_neg isFinite_processEnd) isFinite_processEnd hlow hhigh
  have hscale : Number.Format.double.scaleOf (last.toUnits - first.toUnits).natAbs 1 ≤
      Number.Format.double.scaleOf processEnd.toUnits.natAbs 1 := scaleOf_mono hsmall
  refine ⟨hnear.finite, ?_⟩
  calc ((last - first).toUnits - (last.toUnits - first.toUnits)).natAbs
      ≤ 2 * ((last - first).toUnits - (last.toUnits - first.toUnits)).natAbs :=
        Nat.le_mul_of_pos_left _ Nat.two_pos
    _ ≤ 2 ^ Number.Format.double.scaleOf (last.toUnits - first.toUnits).natAbs 1 :=
        hnear.two_mul_dist_le (nearest_lt_infinity isFinite_processEnd hsmall)
    _ ≤ endStep := Nat.pow_le_pow_right Nat.two_pos hscale

/-- **What lies between two places of the process is rounded into it.** -/
theorem inProcess_between (hshare : IsShare share) :
    InProcess (quantize (between first last share)) := by
  obtain ⟨hfinite, hdist⟩ := dist_sub_le hfirst hlast
  obtain ⟨hshareFinite, hpart⟩ := toUnits_mul_between hfinite hshare
  have hends := And.intro hfirst.toUnits_bounds hlast.toUnits_bounds
  rw [toUnits_processStart] at hends
  have hlow : beforeStart.toUnits ≤ first.toUnits + ((last - first) * share).toUnits := by
    rw [beforeStart_spec.2.2.1]
    generalize processEnd.toUnits = stop at hends
    generalize endStep = step at hdist ⊢
    omega
  have hhigh : first.toUnits + ((last - first) * share).toUnits ≤ pastEnd.toUnits := by
    rw [pastEnd_spec.2.2.1]
    generalize processEnd.toUnits = stop at hends ⊢
    generalize endStep = step at hdist ⊢
    omega
  have hnear := isNearest_add_of_le hfirst.isFinite hshareFinite beforeStart_spec.1 pastEnd_spec.1
    hlow hhigh
  exact inProcess_quantize hnear.finite (hnear.ge beforeStart_spec.1 hlow)
    (hnear.le pastEnd_spec.1 hhigh)

end Between

/-- **A ramp between places of the process stays in it.** -/
theorem inProcess_of_ramp {line : List Char} {e : Entry} {r : Ramp} (hread : read? line = some e)
    (hramp : ramp? line = some r) (hfirst : InProcess r.firstPlace)
    (hlast : InProcess r.lastPlace) : ∀ p ∈ e.points, InProcess p.x := by
  obtain ⟨fields, hfields, rfl⟩ := Option.map_eq_some_iff.mp hread
  rw [ramp?_eq hfields] at hramp
  split_ifs at hramp with hlegacy
  have hpoints : (entryOfFields fields).points =
      sortPoints (if r.points = [] then flatCurve else r.points) := by
    simp only [entryOfFields, hlegacy, hramp, Option.map_some, Option.getD_some, Entry.sorted]
    split_ifs <;> rfl
  intro p hp
  rw [hpoints, mem_sortPoints] at hp
  split_ifs at hp
  · have hflat : ∀ p ∈ flatCurve, InProcess p.x := by decide +kernel
    exact hflat p hp
  · obtain ⟨index, hindex, rfl⟩ := List.mem_map.mp hp
    rw [Ramp.point_eq]
    exact inProcess_between hfirst hlast
      (Ramp.isShare_share (Ramp.inBounds_of_ofFields? hramp) (List.mem_range.mp hindex))

end Line

/-! ## Keyframes of hooks -/

/-- What the keyframes of a hook are, by the points of its entry. -/
structure Hook.Schedules (hook : Hook) (points : List KeyPoint) : Prop where
  eq_nil_iff : hook.keyframes = [] ↔ points = []
  ascend : points ≠ [] → (∀ p ∈ points, p.x.isFinite = true) → PlacesAscend hook.keyframes
  starts : points ≠ [] → (∀ p ∈ points, p.x.isFinite = true) →
    ∃ start ∈ hook.keyframes.head?, start.x.toUnits ≤ processStart.toUnits
  ends : points ≠ [] → (∀ p ∈ points, p.x.isFinite = true) →
    ∃ stop ∈ hook.keyframes.getLast?, processEnd.toUnits ≤ stop.x.toUnits
  /-- They lie between the ends of the process just if the points do. -/
  spans_iff : points ≠ [] → (SpansProcess hook.keyframes ↔ ∀ p ∈ points, InProcess p.x)

theorem Applied.Writes.schedules {a : Applied} {e : Entry} (h : a.Writes e) :
    a.hook.Schedules e.points := by
  have hkeyframes : a.hook.keyframes = padPoints (sortPoints e.points) := h.keyframes
  constructor <;> rw [hkeyframes]
  · rw [padPoints_eq_nil_iff, sortPoints_eq_nil_iff]
  · exact fun hne hfinite => (padPoints_sortPoints_reaches hne hfinite).1
  · exact fun hne hfinite => (padPoints_sortPoints_reaches hne hfinite).2.1
  · exact fun hne hfinite => (padPoints_sortPoints_reaches hne hfinite).2.2
  · exact fun hne => spansProcess_padPoints_iff hne

namespace Source

variable {σ : Type} (source : Source σ)

/-- **The keyframes of the hooks that a resolution builds.**  Each new hook comes
from a candidate and has keyframes just if the candidate has points.  They span
the process just if all these points lie in it, which is so for a ramp between
places of the process; otherwise, if the places are finite, the keyframes still
ascend and reach both ends. -/
theorem resolve_keyframes (entries : List Entry) (text : Option String) (prior : Option Plan)
    (s : σ) :
    let built := (source.applyAll (candidates entries text prior) s).1
    (source.resolve entries text prior s).1.plan.hooks =
        (prior.map Plan.hooks).getD [] ++ built.map Applied.hook ∧
      (∀ a ∈ built, ∃ e ∈ candidates entries text prior, a.hook.name = e.name ∧
        a.hook.Schedules e.points) ∧
      ∀ line e, Line.read? line = some e → ∀ r ∈ Line.ramp? line, InProcess r.firstPlace →
        InProcess r.lastPlace → ∀ p ∈ e.points, InProcess p.x := by
  refine ⟨?_, ?_, ?_⟩
  · simp only [resolve_eq, Plan.compose]
  · intro a ha
    obtain ⟨e, he, hwrites, -⟩ := source.exists_of_mem_applyAll ha
    exact ⟨e, he, hwrites.name, hwrites.schedules⟩
  · exact fun line e hread r hramp hfirst hlast =>
      Line.inProcess_of_ramp hread hramp hfirst hlast

/-- A point after the end of the process stays there: nothing cuts off what a
text places outside of it. -/
theorem keyframes_past_end :
    ¬ ∀ (source : Source Unit) (entries : List Entry) (text : Option String)
      (prior : Option Plan),
      ∀ a ∈ (source.applyAll (candidates entries text prior) ()).1,
        a.hook.keyframes = [] ∨ SpansProcess a.hook.keyframes := by
  intro hall
  let source : Source Unit := {
    resolve? := fun name => if name = "ink" then some ⟨"ink.safetensors"⟩ else none
    load? := fun _ => some (Dict.ofList [("alpha", ⟨[], [Binary.zero false]⟩)])
    words := fun _ => []
    architecture := fun _ => pure .sdxl
    statistics? := fun _ _ => pure none }
  have hbuilt : ∃ a ∈ (source.applyAll (candidates [] (some "<lora:ink:1:1:2,1>") none) ()).1,
      ∃ p ∈ a.hook.keyframes, ¬InProcess p.x := by
    decide +kernel
  obtain ⟨a, ha, p, hp, hout⟩ := hbuilt
  rcases hall source [] (some "<lora:ink:1:1:2,1>") none a ha with hnil | hspans
  · exact List.ne_nil_of_mem hp hnil
  · exact hout (hspans.inside p hp)

end Source

end LoraSchedule
