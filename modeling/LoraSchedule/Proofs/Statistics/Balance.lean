import LoraSchedule.Proofs.Statistics.Weighted
import Mathlib.Algebra.Order.Field.Basic
import Mathlib.Data.List.Sort
import Mathlib.Data.Prod.Lex
import Mathlib.Data.String.Basic
import Mathlib.Tactic.FieldSimp
import Mathlib.Tactic.Linarith

/-!
# Balance as a position

Blocks are compared by a key of three parts, so their order is total.  In this
order a block has as many blocks before it as its index says, and its position is
how many more lie before it than after it, in units of all others
(`position_countBefore`).  The balance is the mean of these positions, whichever
order the blocks are listed in (`balanceOf_eq`).

Its distance from -1 is then a sum over what lies before each block, and its
distance from 1 one over what lies after: neither can be negative, and either
vanishes just if no energy has anything before it, or after it.
-/

namespace LoraSchedule.Statistics

open LoraSchedule.Number (Scalar)

/-! ## The order of blocks -/

/-- What block ids are compared by. -/
def orderKey (id : String) : Nat ×ₗ Nat ×ₗ String := toLex (idRank id, toLex (idNumber id, id))

theorem orderKey_injective : Function.Injective orderKey := fun _ _ hsame =>
  congrArg (fun key => (ofLex (ofLex key).2).2) hsame

theorem idBefore_iff {a b : String} : idBefore a b = true ↔ orderKey a < orderKey b := by
  unfold idBefore orderKey
  rw [Prod.Lex.toLex_lt_toLex, Prod.Lex.toLex_lt_toLex]
  split
  case isTrue hrank =>
    split
    case isTrue hnumber => simp [hrank, hnumber]
    case isFalse hnumber => simp [hrank, hnumber]
  case isFalse hrank => simp [hrank]

theorem idBefore_irrefl (a : String) : idBefore a a = false := by
  rw [← Bool.not_eq_true, idBefore_iff]
  exact lt_irrefl _

theorem idBefore_trans {a b c : String} (hab : idBefore a b = true) (hbc : idBefore b c = true) :
    idBefore a c = true :=
  idBefore_iff.mpr ((idBefore_iff.mp hab).trans (idBefore_iff.mp hbc))

theorem idBefore_asymm {a b : String} (hab : idBefore a b = true) : idBefore b a = false := by
  rw [← Bool.not_eq_true, idBefore_iff]
  exact (idBefore_iff.mp hab).not_gt

theorem idBefore_trichotomy (a b : String) :
    idBefore a b = true ∨ a = b ∨ idBefore b a = true := by
  rw [idBefore_iff, idBefore_iff, ← orderKey_injective.eq_iff]
  exact lt_trichotomy _ _

theorem canonicalOrder_perm (ids : List String) : (canonicalOrder ids).Perm ids :=
  List.mergeSort_perm _ _

theorem canonicalOrder_ascending {ids : List String} (hids : ids.Nodup) :
    (canonicalOrder ids).Pairwise fun a b => idBefore a b = true := by
  have hkeys : (fun a b => !idBefore b a) = fun a b => decide (orderKey a ≤ orderKey b) := by
    funext a b
    rw [Bool.eq_iff_iff, Bool.not_eq_true', ← Bool.not_eq_true, idBefore_iff, not_lt,
      decide_eq_true_iff]
  have hsorted : (canonicalOrder ids).Pairwise fun a b => orderKey a ≤ orderKey b := by
    rw [canonicalOrder, hkeys]
    exact List.pairwise_mergeSort' (Order.Preimage orderKey (· ≤ ·)) ids
  have hapart : (canonicalOrder ids).Nodup := (canonicalOrder_perm ids).nodup_iff.mpr hids
  exact (hsorted.and hapart).imp fun h =>
    idBefore_iff.mpr (h.1.lt_of_ne (orderKey_injective.ne h.2))

/-! ## Places -/

/-- How many blocks come before a block. -/
def countBefore (ids : List String) (id : String) : Nat := ids.countP fun other => idBefore other id

/-- How many blocks come after a block. -/
def countAfter (ids : List String) (id : String) : Nat := ids.countP fun other => idBefore id other

theorem countBefore_of_perm {ids others : List String} (hperm : others.Perm ids) (id : String) :
    countBefore others id = countBefore ids id :=
  hperm.countP_eq _

/-- In canonical order, the index of a block is the number of blocks before it. -/
theorem countBefore_getElem {ids : List String}
    (h : ids.Pairwise fun a b => idBefore a b = true) {i : Nat} (hi : i < ids.length) :
    countBefore ids ids[i] = i := by
  induction ids generalizing i with
  | nil => simp at hi
  | cons first rest ih =>
      rw [List.pairwise_cons] at h
      rw [countBefore, List.countP_cons]
      cases i with
      | zero =>
          have hnone : rest.countP (fun other => idBefore other first) = 0 :=
            List.countP_eq_zero.mpr fun other hother => by simp [idBefore_asymm (h.1 other hother)]
          simp [hnone, idBefore_irrefl]
      | succ i =>
          have hi : i < rest.length := by simpa using hi
          rw [List.getElem_cons_succ, if_pos (h.1 _ (List.getElem_mem hi))]
          exact congrArg (· + 1) (ih h.2 hi)

/-- All blocks but one itself come before or after it. -/
theorem countBefore_add_countAfter {ids : List String} (hids : ids.Nodup) {id : String}
    (hid : id ∈ ids) : countBefore ids id + countAfter ids id + 1 = ids.length := by
  have hothers {others : List String} (hother : id ∉ others) :
      countBefore others id + countAfter others id = others.length := by
    induction others with
    | nil => rfl
    | cons other rest ih =>
        obtain ⟨hne, hrest⟩ := not_or.mp (mt List.mem_cons.mpr hother)
        rw [List.length_cons, ← ih hrest, countBefore, countAfter, countBefore, countAfter,
          List.countP_cons, List.countP_cons]
        rcases idBefore_trichotomy other id with hbefore | hsame | hafter
        · simp only [hbefore, idBefore_asymm hbefore]
          simp
          omega
        · exact absurd hsame.symm hne
        · simp only [hafter, idBefore_asymm hafter]
          simp
          omega
  have hperm := List.perm_cons_erase hid
  rw [countBefore, countAfter, hperm.countP_eq, hperm.countP_eq, hperm.length_eq,
    List.countP_cons_of_neg (by simp [idBefore_irrefl]),
    List.countP_cons_of_neg (by simp [idBefore_irrefl]), List.length_cons,
    ← hothers (hids.not_mem_erase), countBefore, countAfter]

theorem countBefore_le_of_idBefore (ids : List String) {a b : String} (h : idBefore a b = true) :
    countBefore ids a ≤ countBefore ids b :=
  List.countP_mono_left fun _ _ hother => idBefore_trans hother h

theorem countAfter_le_of_idBefore (ids : List String) {a b : String} (h : idBefore a b = true) :
    countAfter ids b ≤ countAfter ids a :=
  List.countP_mono_left fun _ _ hother => idBefore_trans h hother

/-- How many more blocks come before a block than after it. -/
def lead (ids : List String) (id : String) : Rat := countBefore ids id - countAfter ids id

theorem lead_le_of_idBefore (ids : List String) {a b : String} (h : idBefore a b = true) :
    lead ids a ≤ lead ids b := by
  have hbefore : (countBefore ids a : Rat) ≤ countBefore ids b := by
    exact_mod_cast countBefore_le_of_idBefore ids h
  have hafter : (countAfter ids b : Rat) ≤ countAfter ids a := by
    exact_mod_cast countAfter_le_of_idBefore ids h
  unfold lead
  linarith

theorem position_eq (count index : Nat) :
    (position count index : Rat) = index / ((count - 1 : Nat) : Rat) * 2 - 1 := by
  rw [position, scalar_ofNat_eq, scalar_ofNat_eq, scalar_ofNat_eq, scalar_ofNat_eq]
  norm_num

/-- **The position of a block is its lead in units of all other blocks.** -/
theorem position_countBefore {ids : List String} (hids : ids.Nodup) (hcount : 2 ≤ ids.length)
    {id : String} (hid : id ∈ ids) :
    position ids.length (countBefore ids id) = lead ids id / ((ids.length - 1 : Nat) : Rat) := by
  have hplaces := countBefore_add_countAfter hids hid
  have hothers : ids.length - 1 = countBefore ids id + countAfter ids id := by omega
  have hpos : ((ids.length - 1 : Nat) : Rat) ≠ 0 := by
    exact_mod_cast (by omega : ids.length - 1 ≠ 0)
  rw [position_eq, lead]
  field_simp
  rw [hothers]
  push_cast
  ring

/-! ## The mean position -/

/-- Along the canonical order, indices are counts of the blocks before. -/
theorem map_zipIdx_canonicalOrder {β : Type} {ids : List String} (hids : ids.Nodup)
    (value : String → Nat → β) :
    ((canonicalOrder ids).zipIdx.map fun id => value id.1 id.2) =
      (canonicalOrder ids).map fun id => value id (countBefore ids id) := by
  refine List.ext_getElem (by simp) fun i _ hi => ?_
  have hi : i < (canonicalOrder ids).length := by simpa using hi
  have hplace := countBefore_getElem (canonicalOrder_ascending hids) hi
  rw [countBefore_of_perm (canonicalOrder_perm ids)] at hplace
  simp [hplace]

variable {energy : Dict Rat}

theorem nodup_keys (energy : Dict Rat) : energy.keys.Nodup :=
  Dict.nodup_of_ascending energy.ascending

theorem length_keys (energy : Dict Rat) : energy.keys.length = energy.size := List.length_map _

/-- The energies at their positions, summed up. -/
def positionSum (energy : Dict Rat) : Rat :=
  ((canonicalOrder energy.keys).map fun id =>
    (energy.get? id).getD 0 * position energy.size (countBefore energy.keys id)).sum

theorem balanceOf_eq_if (energy : Dict Rat) :
    balanceOf energy =
      if energy.size < 2 then 0
      else if Scalar.atMost energy.values.sum 0 && Scalar.atMost 0 energy.values.sum then 0
      else positionSum energy / energy.values.sum := by
  have hindices := map_zipIdx_canonicalOrder (nodup_keys energy) fun id index =>
    (energy.get? id).getD 0 * position energy.size index
  simp only [balanceOf, scalar_zero_eq, scalar_sum_eq, positionSum, ← hindices]

theorem balanceOf_eq_zero (h : energy.size < 2 ∨ energy.values.sum = 0) : balanceOf energy = 0 := by
  rw [balanceOf_eq_if]
  rcases h with hfew | htotal
  · rw [if_pos hfew]
  · simp [htotal]

/-- The sum over positions does not depend on the order in which blocks are put. -/
theorem positionSum_eq (hcount : 2 ≤ energy.size) :
    positionSum energy =
      weightedEnergy (lead energy.keys) energy / ((energy.size - 1 : Nat) : Rat) := by
  rw [positionSum, ((canonicalOrder_perm energy.keys).map _).sum_eq, div_eq_mul_inv,
    ← weightedEnergy_mul_const, weightedEnergy, Dict.keys, List.map_map]
  refine congrArg List.sum (List.map_congr_left fun entry hentry => ?_)
  have hposition := position_countBefore (nodup_keys energy) (by rwa [length_keys])
    (List.mem_map_of_mem hentry)
  rw [length_keys, div_eq_mul_inv] at hposition
  rw [Function.comp_apply, Dict.mem_toList_iff.mp hentry, Option.getD_some]
  exact congrArg _ hposition

/-- **The balance is the mean lead of the energy**, in units of all other blocks. -/
theorem balanceOf_eq (hcount : 2 ≤ energy.size) (htotal : energy.values.sum ≠ 0) :
    balanceOf energy = weightedEnergy (lead energy.keys) energy /
      (((energy.size - 1 : Nat) : Rat) * energy.values.sum) := by
  have hnonzero : (Scalar.atMost energy.values.sum 0 && Scalar.atMost 0 energy.values.sum) =
      false := by
    rw [← Bool.not_eq_true, Bool.and_eq_true, scalar_atMost_iff, scalar_atMost_iff]
    exact fun h => htotal (le_antisymm h.1 h.2)
  rw [balanceOf_eq_if, if_neg (not_lt.mpr hcount), if_neg (Bool.eq_false_iff.mp hnonzero),
    positionSum_eq hcount, div_div]

/-! ## The ends -/

section Ends

variable (hcount : 2 ≤ energy.size) (htotal : energy.values.sum ≠ 0)

include hcount

theorem others_pos : (0 : Rat) < ((energy.size - 1 : Nat) : Rat) := by
  exact_mod_cast (by omega : 0 < energy.size - 1)

include htotal

/-- All energy, counted with all other blocks, is the unit of the mean. -/
theorem one_eq_weightedEnergy :
    1 = weightedEnergy (fun id => countBefore energy.keys id + countAfter energy.keys id) energy /
      (((energy.size - 1 : Nat) : Rat) * energy.values.sum) := by
  have hothers (id : String) (hid : id ∈ energy.keys) :
      (countBefore energy.keys id + countAfter energy.keys id : Rat) =
        ((energy.size - 1 : Nat) : Rat) := by
    have hplaces := countBefore_add_countAfter (nodup_keys energy) hid
    rw [length_keys] at hplaces
    exact_mod_cast (by omega : countBefore energy.keys id + countAfter energy.keys id =
      energy.size - 1)
  rw [weightedEnergy_congr hothers, weightedEnergy_const, mul_comm,
    div_self (mul_ne_zero (others_pos hcount).ne' htotal)]

/-- The distance from -1 counts what lies before each block. -/
theorem one_add_balanceOf :
    1 + balanceOf energy = weightedEnergy (fun id => countBefore energy.keys id * 2) energy /
      (((energy.size - 1 : Nat) : Rat) * energy.values.sum) := by
  rw [one_eq_weightedEnergy hcount htotal, balanceOf_eq hcount htotal, ← add_div,
    ← weightedEnergy_add]
  refine congrArg (· / _) (weightedEnergy_congr fun id _ => ?_)
  rw [lead]
  ring

/-- The distance from 1 counts what lies after each block. -/
theorem one_sub_balanceOf :
    1 - balanceOf energy = weightedEnergy (fun id => countAfter energy.keys id * 2) energy /
      (((energy.size - 1 : Nat) : Rat) * energy.values.sum) := by
  rw [sub_eq_iff_eq_add, one_eq_weightedEnergy hcount htotal, balanceOf_eq hcount htotal, ← add_div,
    ← weightedEnergy_add]
  refine congrArg (· / _) (weightedEnergy_congr fun id _ => ?_)
  rw [lead]
  ring

end Ends

/-- All energy lies where nothing comes before, just if it lies in one block that
comes before all others. -/
theorem exists_sole_iff (before : String → String → Bool)
    (hasymm : ∀ a b, before a b = true → before b a = false)
    (htrichotomy : ∀ a b, before a b = true ∨ a = b ∨ before b a = true)
    (hsome : ∃ id ∈ energy.keys, energy.get? id ≠ some 0) :
    (∀ id ∈ energy.keys, energy.get? id = some 0 ∨
        energy.keys.countP (fun other => before other id) = 0) ↔
      ∃ first ∈ energy.keys, ∀ id ∈ energy.keys, id ≠ first →
        before first id = true ∧ energy.get? id = some 0 := by
  have hirrefl (a : String) : before a a = false := by
    by_contra h
    rw [Bool.not_eq_false] at h
    exact Bool.false_ne_true ((hasymm a a h).symm.trans h)
  constructor
  · intro hall
    obtain ⟨first, hfirst, hfull⟩ := hsome
    have hnone := List.countP_eq_zero.mp ((hall first hfirst).resolve_left hfull)
    refine ⟨first, hfirst, fun id hid hne => ?_⟩
    have hafter : before first id = true :=
      (htrichotomy first id).resolve_right (not_or.mpr ⟨Ne.symm hne, hnone id hid⟩)
    refine ⟨hafter, (hall id hid).resolve_right fun hempty => ?_⟩
    exact List.countP_eq_zero.mp hempty first hfirst hafter
  · rintro ⟨first, -, hothers⟩ id hid
    by_cases hsame : id = first
    · refine Or.inr (List.countP_eq_zero.mpr fun other hother => ?_)
      rw [hsame, Bool.not_eq_true]
      by_cases hself : other = first
      · rw [hself, hirrefl]
      · exact hasymm _ _ (hothers other hother hself).1
    · exact Or.inl (hothers id hid hsame).2

section Nonneg

variable (hcount : 2 ≤ energy.size) (henergy : ∀ value ∈ energy.values, 0 ≤ value)
  (htotal : 0 < energy.values.sum)

include henergy htotal

theorem exists_energy : ∃ id ∈ energy.keys, energy.get? id ≠ some 0 := by
  by_contra! hnone
  have hzero : weightedEnergy (fun _ => 1) energy = 0 :=
    (weightedEnergy_eq_zero_iff henergy fun _ _ => zero_le_one).mpr fun id hid =>
      Or.inl (hnone id hid)
  rw [weightedEnergy_one] at hzero
  exact htotal.ne' hzero

include hcount

theorem neg_one_le_balanceOf : -1 ≤ balanceOf energy := by
  have hothers := others_pos hcount
  have hdistance : 0 ≤ 1 + balanceOf energy := by
    rw [one_add_balanceOf hcount htotal.ne']
    exact div_nonneg (weightedEnergy_nonneg henergy fun _ _ => by positivity) (by positivity)
  linarith

theorem balanceOf_le_one : balanceOf energy ≤ 1 := by
  have hothers := others_pos hcount
  have hdistance : 0 ≤ 1 - balanceOf energy := by
    rw [one_sub_balanceOf hcount htotal.ne']
    exact div_nonneg (weightedEnergy_nonneg henergy fun _ _ => by positivity) (by positivity)
  linarith

theorem balanceOf_eq_neg_one_iff :
    balanceOf energy = -1 ↔ ∃ first ∈ energy.keys, ∀ id ∈ energy.keys, id ≠ first →
      idBefore first id = true ∧ energy.get? id = some 0 := by
  have hothers := others_pos hcount
  rw [← exists_sole_iff idBefore (fun _ _ => idBefore_asymm) idBefore_trichotomy
    (exists_energy henergy htotal), eq_neg_iff_add_eq_zero, add_comm,
    one_add_balanceOf hcount htotal.ne', div_eq_zero_iff, or_iff_left (by positivity),
    weightedEnergy_eq_zero_iff henergy fun _ _ => by positivity]
  simp [countBefore]

theorem balanceOf_eq_one_iff :
    balanceOf energy = 1 ↔ ∃ last ∈ energy.keys, ∀ id ∈ energy.keys, id ≠ last →
      idBefore id last = true ∧ energy.get? id = some 0 := by
  have hothers := others_pos hcount
  have hflipped := exists_sole_iff (fun a b => idBefore b a) (fun _ _ => idBefore_asymm)
    (fun a b => (idBefore_trichotomy b a).imp_right (Or.imp_left Eq.symm))
    (exists_energy henergy htotal)
  rw [← hflipped, ← sub_eq_zero, ← neg_eq_zero, neg_sub,
    one_sub_balanceOf hcount htotal.ne', div_eq_zero_iff, or_iff_left (by positivity),
    weightedEnergy_eq_zero_iff henergy fun _ _ => by positivity]
  simp [countAfter]

end Nonneg

/-! ## Changes of energy -/

theorem balanceOf_scaled {c : Rat} (hc : c ≠ 0) (energy : Dict Rat) :
    balanceOf (scaled c energy) = balanceOf energy := by
  by_cases hproper : energy.size < 2 ∨ energy.values.sum = 0
  · rw [balanceOf_eq_zero hproper, balanceOf_eq_zero]
    rw [size_scaled, sum_values_scaled]
    exact hproper.imp_right fun htotal => by rw [htotal, mul_zero]
  · rw [not_or, not_lt] at hproper
    rw [balanceOf_eq hproper.1 hproper.2, balanceOf_eq (by rw [size_scaled]; exact hproper.1)
      (by rw [sum_values_scaled]; exact mul_ne_zero hc hproper.2), keys_scaled, size_scaled,
      weightedEnergy_scaled, sum_values_scaled, mul_left_comm, mul_div_mul_left _ _ hc]

/-- Some energy of one block given to another. -/
def moveEnergy (energy : Dict Rat) (source target : String) (amount : Rat) : Dict Rat :=
  addEnergy (addEnergy energy source (-amount)) target amount

theorem keys_addEnergy {id : String} (hid : id ∈ energy.keys) (norm : Rat) :
    (addEnergy energy id norm).keys = energy.keys :=
  Dict.keys_eq_of_mem_iff fun _ => mem_keys_addEnergy.trans (or_iff_right_of_imp fun h => h ▸ hid)

section Moves

variable {source target : String} (hsource : source ∈ energy.keys) (htarget : target ∈ energy.keys)

include hsource htarget

theorem keys_moveEnergy (amount : Rat) :
    (moveEnergy energy source target amount).keys = energy.keys := by
  have hkeys := keys_addEnergy hsource (-amount)
  rw [moveEnergy, keys_addEnergy (hkeys ▸ htarget), hkeys]

/-- A move changes the balance by the lead that it gains. -/
theorem balanceOf_moveEnergy (hcount : 2 ≤ energy.size) (htotal : energy.values.sum ≠ 0)
    (amount : Rat) :
    balanceOf (moveEnergy energy source target amount) =
      balanceOf energy + amount * (lead energy.keys target - lead energy.keys source) /
        (((energy.size - 1 : Nat) : Rat) * energy.values.sum) := by
  have hkeys := keys_moveEnergy hsource htarget amount
  have hsize : (moveEnergy energy source target amount).size = energy.size := by
    rw [← length_keys, hkeys, length_keys]
  have hsum : (moveEnergy energy source target amount).values.sum = energy.values.sum := by
    rw [moveEnergy, sum_values_addEnergy, sum_values_addEnergy, neg_add_cancel_right]
  rw [balanceOf_eq (hsize ▸ hcount) (hsum ▸ htotal), balanceOf_eq hcount htotal, hkeys, hsize, hsum,
    moveEnergy, weightedEnergy_addEnergy, weightedEnergy_addEnergy, ← add_div]
  ring

theorem balanceOf_le_moveEnergy (hcount : 2 ≤ energy.size) (htotal : 0 < energy.values.sum)
    (hlater : idBefore source target = true) {amount : Rat} (hamount : 0 ≤ amount) :
    balanceOf energy ≤ balanceOf (moveEnergy energy source target amount) := by
  have hothers := others_pos hcount
  have hlead := sub_nonneg.mpr (lead_le_of_idBefore energy.keys hlater)
  rw [balanceOf_moveEnergy hsource htarget hcount htotal.ne']
  exact le_add_of_nonneg_right (by positivity)

end Moves

/-! ## Divisions -/

theorem position_guarded {count : Nat} (hcount : 2 ≤ count) (index : Nat) :
    position count index = Guarded.number (position count index) := by
  have hothers : (Scalar.ofNat (count - 1) : Rat) ≠ 0 := by
    rw [scalar_ofNat_eq]
    exact_mod_cast (by omega : count - 1 ≠ 0)
  rw [position, position, Guarded.ofNat_eq, Guarded.ofNat_eq, Guarded.number_div _ hothers]
  rfl

theorem values_guarded (energy : Dict Rat) :
    (energy.map fun _ => Guarded.number).values = energy.values.map Guarded.number := by
  simp [Dict.values, Dict.map]

theorem positionSum_guarded (hcount : 2 ≤ energy.size) :
    Scalar.sum ((canonicalOrder (energy.map fun _ => Guarded.number).keys).zipIdx.map fun id =>
        ((energy.map fun _ => Guarded.number).get? id.1).getD (Guarded.number Scalar.zero) *
          position energy.size id.2) =
      Guarded.number (Scalar.sum ((canonicalOrder energy.keys).zipIdx.map fun id =>
        (energy.get? id.1).getD Scalar.zero * position energy.size id.2)) := by
  rw [← Guarded.sum_map_number, Dict.keys_map, List.map_map]
  refine congrArg Scalar.sum (List.map_congr_left fun id _ => ?_)
  rw [Dict.get?_map, Option.getD_map, position_guarded hcount]
  rfl

/-- **The balance never divides by zero.** -/
theorem balanceOf_guarded (energy : Dict Rat) :
    balanceOf (energy.map fun _ => Guarded.number) = Guarded.number (balanceOf energy) := by
  have hsize : (energy.map fun _ => Guarded.number).size = energy.size := List.length_map _
  unfold balanceOf
  dsimp only
  rw [hsize, values_guarded, Guarded.sum_map_number, Guarded.zero_eq, Guarded.atMost_number,
    Guarded.atMost_number]
  by_cases hfew : energy.size < 2
  · rw [if_pos hfew, if_pos hfew]
  rw [if_neg hfew, if_neg hfew]
  by_cases hzero : (Scalar.atMost (Scalar.sum energy.values) Scalar.zero &&
      Scalar.atMost Scalar.zero (Scalar.sum energy.values)) = true
  · rw [if_pos hzero, if_pos hzero]
  have htotal : Scalar.sum energy.values ≠ 0 := by
    intro htotal
    simp [htotal] at hzero
  rw [if_neg hzero, if_neg hzero, positionSum_guarded (not_lt.mp hfew),
    Guarded.number_div _ htotal]

/-! ## The laws -/

/-- **The balance is a bipolar position.**  Blocks are compared in a strict total
order.  Where at least two blocks hold some energy, and none a negative one, the
balance lies in [-1, 1], at an end just if all energy is in the first block or in
the last one; it does not depend on scale and does not fall when energy moves to a
later block.  Otherwise it is 0, and no division by zero is made. -/
theorem balanceOf_position :
    ((∀ a, idBefore a a = false) ∧
      (∀ a b c, idBefore a b = true → idBefore b c = true → idBefore a c = true) ∧
      ∀ a b, idBefore a b = true ∨ a = b ∨ idBefore b a = true) ∧
    ∀ energy : Dict Rat,
      (2 ≤ energy.size → (∀ value ∈ energy.values, 0 ≤ value) → 0 < energy.values.sum →
        (-1 ≤ balanceOf energy ∧ balanceOf energy ≤ 1) ∧
        (balanceOf energy = -1 ↔ ∃ first ∈ energy.keys, ∀ id ∈ energy.keys, id ≠ first →
          idBefore first id = true ∧ energy.get? id = some 0) ∧
        (balanceOf energy = 1 ↔ ∃ last ∈ energy.keys, ∀ id ∈ energy.keys, id ≠ last →
          idBefore id last = true ∧ energy.get? id = some 0) ∧
        (∀ c, 0 < c → balanceOf (scaled c energy) = balanceOf energy) ∧
        ∀ source ∈ energy.keys, ∀ target ∈ energy.keys, idBefore source target = true →
          ∀ amount, 0 ≤ amount →
            balanceOf energy ≤ balanceOf (moveEnergy energy source target amount)) ∧
      (energy.size < 2 ∨ energy.values.sum = 0 → balanceOf energy = 0) ∧
      balanceOf (energy.map fun _ => Guarded.number) = Guarded.number (balanceOf energy) := by
  refine ⟨⟨idBefore_irrefl, fun _ _ _ => idBefore_trans, idBefore_trichotomy⟩, fun energy =>
    ⟨fun hcount henergy htotal => ⟨⟨?_, ?_⟩, ?_, ?_, ?_, ?_⟩, balanceOf_eq_zero,
      balanceOf_guarded energy⟩⟩
  · exact neg_one_le_balanceOf hcount henergy htotal
  · exact balanceOf_le_one hcount henergy htotal
  · exact balanceOf_eq_neg_one_iff hcount henergy htotal
  · exact balanceOf_eq_one_iff hcount henergy htotal
  · exact fun c hc => balanceOf_scaled hc.ne' energy
  · exact fun source hsource target htarget hlater amount hamount =>
      balanceOf_le_moveEnergy hsource htarget hcount htotal hlater hamount

/-- All energy in the second block as a text, which is the first one by number. -/
def lowBlockEnergy : Dict Rat := Dict.ofList [("input_10", 0), ("input_2", 3)]

/-- It lies at the early end, and moves off it no further down. -/
theorem balanceOf_position_low_block :
    balanceOf lowBlockEnergy = -1 ∧ balanceOf (scaled 2 lowBlockEnergy) = -1 ∧
      -1 ≤ balanceOf (moveEnergy lowBlockEnergy "input_2" "input_10" 1) := by
  have hkeys : lowBlockEnergy.keys = ["input_10", "input_2"] := by decide +kernel
  have hvalues : lowBlockEnergy.values = [0, 3] := by decide +kernel
  have hbefore : idBefore "input_2" "input_10" = true := by decide +kernel
  obtain ⟨-, hlow, -, hscaled, hmoved⟩ := (balanceOf_position.2 lowBlockEnergy).1 (by decide)
    (by simp [hvalues]) (by simp [hvalues])
  have hend : balanceOf lowBlockEnergy = -1 := by
    refine hlow.mpr ⟨"input_2", by simp [hkeys], fun id hid hne => ?_⟩
    obtain rfl : id = "input_10" := by simpa [hkeys, hne] using hid
    exact ⟨hbefore, by decide +kernel⟩
  refine ⟨hend, (hscaled 2 two_pos).trans hend, hend.symm.le.trans ?_⟩
  exact hmoved _ (by simp [hkeys]) _ (by simp [hkeys]) hbefore 1 zero_le_one

end LoraSchedule.Statistics
