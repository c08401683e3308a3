import LoraSchedule.Proofs.Statistics.Balance
import LoraSchedule.Proofs.Statistics.Sparsity
import LoraSchedule.Statistics.Lineage

/-!
# Lineage does not depend on scale

A file whose norms are all multiplied by one factor is the same file trained more
strongly.  Its blocks have their energies multiplied by that factor
(`energy_ofNorms_scaled`), and the five measures that tell lineages apart are all
quotients of energies: the three shares, sparsity and balance.

A share counts the blocks of a region with weight 1.  So the shares of regions
without a common word add up, and no region has more than all.
-/

namespace LoraSchedule.Statistics

open LoraSchedule.Number (Scalar)

/-! ## Shares -/

/-- The weight of a block in a region. -/
def regionWeight (words : List String) (id : String) : Rat := if isInRegion words id then 1 else 0

theorem regionWeight_nonneg (words : List String) (id : String) : 0 ≤ regionWeight words id := by
  unfold regionWeight
  split <;> norm_num

theorem regionWeight_le_one (words : List String) (id : String) : regionWeight words id ≤ 1 := by
  unfold regionWeight
  split <;> norm_num

/-- Words of which none is another, in letters of either case. -/
def NoCommonWord (words others : List String) : Prop :=
  ∀ word ∈ words, ∀ other ∈ others, Text.equalIgnoringCase word.toList other.toList = false

instance (words others : List String) : Decidable (NoCommonWord words others) :=
  inferInstanceAs (Decidable (∀ word ∈ words, ∀ other ∈ others,
    Text.equalIgnoringCase word.toList other.toList = false))

theorem isInRegion_append (words others : List String) (id : String) :
    isInRegion (words ++ others) id = (isInRegion words id || isInRegion others id) :=
  List.any_append

/-- A block id starts with one word only. -/
theorem not_isInRegion_of_noCommonWord {words others : List String} (h : NoCommonWord words others)
    {id : String} (hid : isInRegion words id = true) : isInRegion others id = false := by
  obtain ⟨word, hword, hsame⟩ := List.any_eq_true.mp hid
  refine List.any_eq_false.mpr fun other hother hsame' => ?_
  have hdiffer := h word hword other hother
  simp only [Text.equalIgnoringCase, decide_eq_true_eq, decide_eq_false_iff_not]
    at hsame hsame' hdiffer
  exact hdiffer (hsame.symm.trans hsame')

theorem regionWeight_append {words others : List String} (h : NoCommonWord words others)
    (id : String) :
    regionWeight (words ++ others) id = regionWeight words id + regionWeight others id := by
  simp only [regionWeight, isInRegion_append]
  cases hid : isInRegion words id with
  | false => simp
  | true => simp [not_isInRegion_of_noCommonWord h hid]

theorem sum_values_filter (energy : Dict Rat) (holds : String → Bool) :
    (energy.filter fun id _ => holds id).values.sum =
      weightedEnergy (fun id => if holds id then 1 else 0) energy := by
  show ((energy.toList.filter fun entry => holds entry.1).map Prod.snd).sum = _
  rw [weightedEnergy]
  induction energy.toList with
  | nil => rfl
  | cons entry rest ih =>
      rw [List.filter_cons, List.map_cons, List.sum_cons, ← ih]
      cases holds entry.1 with
      | false => simp
      | true => simp

theorem regionShare_eq (s : Statistics Rat) (words : List String) :
    s.regionShare words =
      if s.energy.values.sum ≤ 0 then 0
      else weightedEnergy (regionWeight words) s.energy / s.energy.values.sum := by
  simp only [regionShare, distributedEnergy, scalar_sum_eq, scalar_zero_eq, scalar_atMost_iff,
    sum_values_filter]
  rfl

/-- **Shares of regions without a common word add up.** -/
theorem regionShare_append (s : Statistics Rat) {words others : List String}
    (h : NoCommonWord words others) :
    s.regionShare (words ++ others) = s.regionShare words + s.regionShare others := by
  rw [regionShare_eq, regionShare_eq, regionShare_eq]
  split
  · rw [add_zero]
  · rw [← add_div, ← weightedEnergy_add,
      weightedEnergy_congr fun id _ => regionWeight_append h id]

section Nonneg

variable {s : Statistics Rat} (henergy : ∀ value ∈ s.energy.values, 0 ≤ value)

include henergy

theorem regionShare_nonneg (words : List String) : 0 ≤ s.regionShare words := by
  rw [regionShare_eq]
  split
  case isTrue => exact le_rfl
  case isFalse htotal =>
    refine div_nonneg ?_ (not_le.mp htotal).le
    exact weightedEnergy_nonneg henergy fun id _ => regionWeight_nonneg words id

theorem regionShare_le_one (words : List String) : s.regionShare words ≤ 1 := by
  rw [regionShare_eq]
  split
  case isTrue => exact zero_le_one
  case isFalse htotal =>
    rw [div_le_one (not_le.mp htotal)]
    refine (weightedEnergy_le henergy fun id _ => regionWeight_le_one words id).trans ?_
    rw [weightedEnergy_one]

theorem shares_le_one : s.inputShare + s.middleShare + s.outputShare ≤ 1 := by
  have hjoined := regionShare_le_one henergy (["input"] ++ ["middle", "mid"] ++ ["output"])
  rwa [regionShare_append s (by decide), regionShare_append s (by decide)] at hjoined

end Nonneg

/-! ## Scale -/

/-- The norms of tensors multiplied by a factor. -/
def scaleNorms (c : Rat) (norms : List (String × Rat)) : List (String × Rat) :=
  norms.map fun tensor => (tensor.1, c * tensor.2)

theorem addEnergy_scaled (c : Rat) (energy : Dict Rat) (id : String) (norm : Rat) :
    addEnergy (scaled c energy) id (c * norm) = scaled c (addEnergy energy id norm) := by
  refine Dict.ext_get? fun other => ?_
  simp only [addEnergy, scaled, scalar_zero_eq, Dict.get?_insert, Dict.get?_map]
  split
  · cases energy.get? id <;> simp [mul_add]
  · rfl

theorem foldl_addEnergy_scaled (c : Rat) (idOf : String → String) (norms : List (String × Rat))
    (energy : Dict Rat) :
    (scaleNorms c norms).foldl (fun energy tensor => addEnergy energy (idOf tensor.1) tensor.2)
        (scaled c energy) =
      scaled c (norms.foldl (fun energy tensor => addEnergy energy (idOf tensor.1) tensor.2)
        energy) := by
  induction norms generalizing energy with
  | nil => rfl
  | cons tensor rest ih =>
      rw [List.foldl_cons, ← ih, ← addEnergy_scaled]
      rfl

variable {a : Architecture} {norms : List (String × Rat)}

/-- **Norms multiplied by a factor give energies multiplied by it.** -/
theorem energy_ofNorms_scaled (a : Architecture) (norms : List (String × Rat)) (c : Rat) :
    (ofNorms a (scaleNorms c norms)).energy = scaled c (ofNorms a norms).energy :=
  foldl_addEnergy_scaled c (fun key => (Block.ofKey a.layout key).id) norms ∅

theorem sparsity_ofNorms (a : Architecture) (norms : List (String × Rat)) :
    (ofNorms a norms).sparsity = gini (ofNorms a norms).energy.values := rfl

theorem balance_ofNorms (a : Architecture) (norms : List (String × Rat)) :
    (ofNorms a norms).balance = balanceOf (ofNorms a norms).energy := rfl

theorem nonneg_of_mem_values_ofNorms (hnorms : ∀ tensor ∈ norms, 0 ≤ tensor.2) :
    ∀ value ∈ (ofNorms a norms).energy.values, 0 ≤ value := by
  have haccounts : Accounts a norms (ofNorms a norms) := accounts_ofNorms
  intro value hvalue
  obtain ⟨⟨id, _⟩, hentry, rfl⟩ := List.mem_map.mp hvalue
  have hblock := haccounts.ofBlock id (List.mem_map_of_mem hentry)
  rw [Dict.mem_toList_iff.mp hentry] at hblock
  rw [Option.some.inj hblock]
  refine List.sum_nonneg (List.forall_mem_map.mpr fun tensor htensor => ?_)
  exact hnorms tensor (List.mem_of_mem_filter htensor)

section Positive

variable {c : Rat} (hc : 0 < c)

include hc

theorem regionShare_ofNorms_scaled (words : List String) :
    (ofNorms a (scaleNorms c norms)).regionShare words = (ofNorms a norms).regionShare words := by
  have hsign (total : Rat) : c * total ≤ 0 ↔ total ≤ 0 := by
    rw [← not_lt, ← not_lt, mul_pos_iff_of_pos_left hc]
  rw [regionShare_eq, regionShare_eq, energy_ofNorms_scaled, sum_values_scaled,
    weightedEnergy_scaled, mul_div_mul_left _ _ hc.ne']
  simp only [hsign]

theorem sparsity_ofNorms_scaled :
    (ofNorms a (scaleNorms c norms)).sparsity = (ofNorms a norms).sparsity := by
  rw [sparsity_ofNorms, sparsity_ofNorms, energy_ofNorms_scaled, values_scaled, gini_map_mul hc]

theorem balance_ofNorms_scaled :
    (ofNorms a (scaleNorms c norms)).balance = (ofNorms a norms).balance := by
  rw [balance_ofNorms, balance_ofNorms, energy_ofNorms_scaled, balanceOf_scaled hc.ne']

theorem lineage_ofNorms_scaled :
    (ofNorms a (scaleNorms c norms)).lineage = (ofNorms a norms).lineage := by
  unfold lineage inputShare middleShare outputShare
  rw [regionShare_ofNorms_scaled hc, regionShare_ofNorms_scaled hc, regionShare_ofNorms_scaled hc,
    sparsity_ofNorms_scaled hc, balance_ofNorms_scaled hc]

end Positive

/-! ## The laws -/

/-- **The lineage of a file does not depend on how strongly it was trained.**
Shares of regions without a common word add up; of norms that are not negative
those of the input, the middle and the output blocks lie in [0, 1] and make up at
most the whole; and with all norms multiplied by one factor, shares, sparsity and
balance are the same, and so is the lineage. -/
theorem lineage_scale_free :
    (∀ (s : Statistics Rat) (words others : List String), NoCommonWord words others →
      s.regionShare (words ++ others) = s.regionShare words + s.regionShare others) ∧
    ∀ (a : Architecture) (norms : List (String × Rat)), (∀ tensor ∈ norms, 0 ≤ tensor.2) →
      let s := ofNorms a norms
      (∀ share ∈ [s.inputShare, s.middleShare, s.outputShare], 0 ≤ share ∧ share ≤ 1) ∧
      s.inputShare + s.middleShare + s.outputShare ≤ 1 ∧
      ∀ c, 0 < c →
        let t := ofNorms a (scaleNorms c norms)
        (∀ words, t.regionShare words = s.regionShare words) ∧
        t.sparsity = s.sparsity ∧ t.balance = s.balance ∧ t.lineage = s.lineage := by
  refine ⟨fun s words others => regionShare_append s, fun a norms hnorms => ?_⟩
  have henergy := nonneg_of_mem_values_ofNorms (a := a) hnorms
  refine ⟨?_, shares_le_one henergy, fun c hc => ⟨regionShare_ofNorms_scaled hc,
    sparsity_ofNorms_scaled hc, balance_ofNorms_scaled hc, lineage_ofNorms_scaled hc⟩⟩
  have hshare (words : List String) : 0 ≤ (ofNorms a norms).regionShare words ∧
      (ofNorms a norms).regionShare words ≤ 1 :=
    ⟨regionShare_nonneg henergy words, regionShare_le_one henergy words⟩
  simp only [List.forall_mem_cons, List.not_mem_nil, false_imp_iff, implies_true, and_true]
  exact ⟨hshare _, hshare _, hshare _⟩

/-- Three quarters of the energy in an output block. -/
def lateNorms : List (String × Rat) :=
  [("input_blocks.4.w", 1), ("output_blocks.3.w", 3)]

/-- A hundredfold the strength, the same lineage. -/
theorem lineage_scale_free_late :
    (ofNorms .sdxl (scaleNorms 100 lateNorms)).lineage = .pony ∧
      (ofNorms .sdxl (scaleNorms 100 lateNorms)).outputShare = 3 / 4 ∧
      (ofNorms .sdxl lateNorms).inputShare ≤ 1 ∧
      (ofNorms .sdxl lateNorms).regionShare (["Input"] ++ ["output"]) =
        (ofNorms .sdxl lateNorms).regionShare ["Input"] +
          (ofNorms .sdxl lateNorms).regionShare ["output"] := by
  have hnorms : ∀ tensor ∈ lateNorms, 0 ≤ tensor.2 := by simp [lateNorms]
  obtain ⟨hshares, -, hscaled⟩ := lineage_scale_free.2 .sdxl lateNorms hnorms
  obtain ⟨hregion, -, -, hlineage⟩ := hscaled 100 (by norm_num)
  have houtput : (ofNorms .sdxl lateNorms).outputShare = 3 / 4 := by decide +kernel
  have hsparsity : (ofNorms .sdxl lateNorms).sparsity = 1 / 4 := by
    have hvalues : (ofNorms .sdxl lateNorms).energy.values = [1, 3] := by decide +kernel
    rw [sparsity_ofNorms, hvalues, gini_eq]
    norm_num [sizes, pairGaps]
  have hpony : (ofNorms .sdxl lateNorms).lineage = .pony := by
    rw [lineage, houtput, hsparsity]
    exact if_pos (by decide +kernel)
  exact ⟨hlineage.trans hpony, (hregion ["output"]).trans houtput,
    (hshares _ (List.mem_cons_self ..)).2, lineage_scale_free.1 _ ["Input"] ["output"] (by decide)⟩

end LoraSchedule.Statistics
