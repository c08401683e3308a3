import LoraSchedule.Proofs.Schedule.Legible

/-!
# Sorted points

The points of a curve are sorted by their places, and points at one place keep
their order.  Both together leave no choice (`StablySorts.unique`), so a sorted
list is described by its *runs*, the points at each place (`stablySorts_iff`).
Two lists with the same runs are sorted alike (`sortPoints_congr`), however they
are mixed.
-/

namespace LoraSchedule

open LoraSchedule.Number

/-- Numbers at one place of the total order are the same. -/
theorem Number.Binary.eq_of_totalRank_eq {F : Format} {x y : Binary F}
    (h : x.totalRank = y.totalRank) : x = y := by
  obtain ⟨negative, magnitude⟩ := x
  obtain ⟨negative', magnitude'⟩ := y
  cases negative <;> cases negative' <;> simp [Binary.totalRank] at h ⊢ <;> omega

/-- The points at a place. -/
def pointsAt (x : Double) (points : List KeyPoint) : List KeyPoint :=
  points.filter fun p => p.x = x

/-- A list holds points in the order of their places, and at each place those of
another list in their order there. -/
structure StablySorts (sorted points : List KeyPoint) : Prop where
  ascending : sorted.Pairwise fun a b => a.x.totalAtMost b.x = true
  runs : ∀ x, pointsAt x sorted = pointsAt x points

section Runs

variable {first second points : List KeyPoint}

theorem mem_pointsAt {x : Double} {p : KeyPoint} :
    p ∈ pointsAt x points ↔ p ∈ points ∧ p.x = x := by
  rw [pointsAt, List.mem_filter, decide_eq_true_eq]

/-- Lists with the same runs hold the same points. -/
theorem mem_of_runs (h : ∀ x, pointsAt x first = pointsAt x second) {p : KeyPoint}
    (hp : p ∈ first) : p ∈ second := by
  have hrun : p ∈ pointsAt p.x first := mem_pointsAt.mpr ⟨hp, rfl⟩
  rw [h] at hrun
  exact (mem_pointsAt.mp hrun).1

/-- **There is one way to sort points stably.** -/
theorem StablySorts.unique (hfirst : StablySorts first points)
    (hsecond : StablySorts second points) : first = second := by
  have hruns : ∀ x, pointsAt x first = pointsAt x second := fun x =>
    (hfirst.runs x).trans (hsecond.runs x).symm
  have hascending := hfirst.ascending
  have hascending' := hsecond.ascending
  clear hfirst hsecond
  induction first generalizing second with
  | nil =>
      cases second with
      | nil => rfl
      | cons b _ =>
          exact absurd (mem_of_runs (fun x => (hruns x).symm) List.mem_cons_self) (by simp)
  | cons a rest ih =>
      cases second with
      | nil => exact absurd (mem_of_runs hruns List.mem_cons_self) (by simp)
      | cons b others =>
          rw [List.pairwise_cons] at hascending hascending'
          -- each head stands in the other list, so neither comes before the other
          have hplace : a.x = b.x := by
            rcases List.mem_cons.mp (mem_of_runs hruns List.mem_cons_self) with hab | hothers
            · rw [hab]
            rcases List.mem_cons.mp
                (mem_of_runs (fun x => (hruns x).symm) List.mem_cons_self) with hba | hrest
            · rw [hba]
            have hle := hascending.1 b hrest
            have hge := hascending'.1 a hothers
            simp only [Binary.totalAtMost, decide_eq_true_eq] at hle hge
            exact Binary.eq_of_totalRank_eq (le_antisymm hle hge)
          have hhead := hruns a.x
          simp only [pointsAt, List.filter_cons, hplace, decide_true, if_true] at hhead
          obtain ⟨rfl, -⟩ := List.cons.inj hhead
          congr 1
          refine ih (fun x => ?_) hascending.2 hascending'.2
          have hrun := hruns x
          simp only [pointsAt, List.filter_cons] at hrun
          split_ifs at hrun
          · exact (List.cons.inj hrun).2
          · exact hrun

end Runs

theorem stablySorts_sortPoints (points : List KeyPoint) :
    StablySorts (sortPoints points) points where
  ascending := pairwise_sortPoints points
  runs x := by
    have hperm : (pointsAt x (sortPoints points)).Perm (pointsAt x points) :=
      (List.mergeSort_perm points _).filter _
    -- a run is in order, so sorting keeps it as a sublist
    have hrun : (pointsAt x points).Pairwise fun a b => a.x.totalAtMost b.x = true := by
      refine List.pairwise_of_forall_mem_list fun a ha b hb => ?_
      rw [(mem_pointsAt.mp ha).2, (mem_pointsAt.mp hb).2]
      simp [Binary.totalAtMost]
    have hsublist : (pointsAt x points).Sublist (sortPoints points) := by
      refine List.sublist_mergeSort ?_ ?_ hrun List.filter_sublist
      · exact fun a b c => Binary.totalAtMost_trans
      · exact fun a b => a.x.totalAtMost_total b.x
    have hkept := hsublist.filter fun p => p.x = x
    rw [pointsAt, List.filter_filter] at hkept
    simp only [Bool.and_self] at hkept
    exact (hkept.eq_of_length hperm.length_eq.symm).symm

/-- **Sorting is what keeps the runs in order.** -/
theorem stablySorts_iff {sorted points : List KeyPoint} :
    StablySorts sorted points ↔ sorted = sortPoints points := by
  constructor
  · exact fun h => h.unique (stablySorts_sortPoints points)
  · rintro rfl
    exact stablySorts_sortPoints points

/-- Points with the same runs are sorted alike. -/
theorem sortPoints_congr {first second : List KeyPoint}
    (h : ∀ x, pointsAt x first = pointsAt x second) : sortPoints first = sortPoints second := by
  have hfirst := stablySorts_sortPoints first
  refine stablySorts_iff.mp ⟨hfirst.ascending, fun x => ?_⟩
  exact (hfirst.runs x).trans (h x)

end LoraSchedule
