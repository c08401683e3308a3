import LoraSchedule.Proofs.Statistics.Records
import Mathlib.Algebra.BigOperators.Group.List.Basic
import Mathlib.Algebra.Order.Ring.Rat
import Mathlib.Tactic.Ring

/-!
# Where the energy goes

Taken exactly, statistics lose no energy: each block holds the norms of its own
tensors, and the total, the energies of all blocks and those of all roles come to
the sum of the norms.  For the blocks together this is one law of insertion
(`weightedEnergy_addEnergy`, here with weights 1) carried along the scan; for the
roles it is that each block has exactly one (`sum_over_roles`).

None of it depends on the order of the tensors, nor does what is recorded about
the blocks, so the statistics do not either.
-/

namespace LoraSchedule.Statistics

open LoraSchedule.Number (Scalar)

/-! ## Exact sums -/

theorem foldl_add_eq (values : List Rat) (start : Rat) :
    values.foldl (· + ·) start = start + values.sum := by
  induction values generalizing start with
  | nil => simp
  | cons value rest ih => rw [List.foldl_cons, ih, List.sum_cons, add_assoc]

theorem foldl_add_map_eq {ι : Type} (value : ι → Rat) (items : List ι) (start : Rat) :
    items.foldl (fun sum item => sum + value item) start = start + (items.map value).sum := by
  rw [← foldl_add_eq, List.foldl_map]

@[simp] theorem scalar_zero_eq : (Scalar.zero : Rat) = 0 := by
  show ((0 : Nat) : Rat) / ((Nat.pow 10 0 : Nat) : Rat) = 0
  simp

@[simp] theorem scalar_sum_eq (values : List Rat) : Scalar.sum values = values.sum := by
  have hfold := foldl_add_eq values 0
  rw [zero_add] at hfold
  exact hfold

/-- Parts that are left out count as zero. -/
theorem sum_filterMap {ι κ : Type} (items : List ι) (part? : ι → Option (κ × Rat)) :
    ((items.filterMap part?).map Prod.snd).sum =
      (items.map fun item => ((part? item).map Prod.snd).getD 0).sum := by
  induction items with
  | nil => rfl
  | cons item rest ih =>
      rw [List.filterMap_cons, List.map_cons, List.sum_cons, ← ih]
      cases part? item with
      | none => simp
      | some part => simp

/-! ## The energy of all blocks -/

/-- The energy of all blocks, each with a weight. -/
def weightedEnergy (weight : String → Rat) (energy : Dict Rat) : Rat :=
  (energy.toList.map fun entry => entry.2 * weight entry.1).sum

theorem weightedEnergy_one (energy : Dict Rat) :
    weightedEnergy (fun _ => 1) energy = energy.values.sum := by
  simp only [weightedEnergy, mul_one, Dict.values]

/-- What is put in is added, and what it replaces is taken away. -/
theorem sum_insertEntry (weight : String → Rat) (id : String) (value : Rat)
    {entries : List (String × Rat)} (h : entries.Pairwise (fun a b => a.1 < b.1)) :
    ((Dict.insertEntry id value entries).map fun entry => entry.2 * weight entry.1).sum +
        (entries.lookup id).getD 0 * weight id =
      (entries.map fun entry => entry.2 * weight entry.1).sum + value * weight id := by
  induction entries with
  | nil => simp [Dict.insertEntry]
  | cons head rest ih =>
      rw [List.pairwise_cons] at h
      rw [Dict.insertEntry, Dict.lookup_cons_eq_if]
      split
      case isTrue hbefore =>
        -- An id before the first one is not in the rest either, so nothing is replaced.
        have hnew : rest.lookup id = none := by
          rw [List.lookup_eq_none_iff]
          intro entry hentry
          have hless := String.lt_trans hbefore (h.1 entry hentry)
          simpa using String.ne_of_lt hless
        rw [if_neg (String.ne_of_lt hbefore), hnew]
        simp [add_comm]
      case isFalse =>
        split
        case isTrue hsame => simp [hsame]; ring
        case isFalse hother =>
          rw [List.map_cons, List.sum_cons, List.map_cons, List.sum_cons, add_assoc, ih h.2,
            add_assoc]

/-- **Added energy counts with the weight of its block.** -/
theorem weightedEnergy_addEnergy (weight : String → Rat) (energy : Dict Rat) (id : String)
    (norm : Rat) :
    weightedEnergy weight (addEnergy energy id norm) =
      weightedEnergy weight energy + norm * weight id := by
  rw [addEnergy, scalar_zero_eq]
  apply add_right_cancel (b := (energy.get? id).getD 0 * weight id)
  calc
    weightedEnergy weight (energy.insert id ((energy.get? id).getD 0 + norm)) +
        (energy.get? id).getD 0 * weight id
      = weightedEnergy weight energy + ((energy.get? id).getD 0 + norm) * weight id :=
        sum_insertEntry weight id _ energy.ascending
    _ = weightedEnergy weight energy + norm * weight id +
        (energy.get? id).getD 0 * weight id := by ring

theorem sum_values_addEnergy (energy : Dict Rat) (id : String) (norm : Rat) :
    (addEnergy energy id norm).values.sum = energy.values.sum + norm := by
  rw [← weightedEnergy_one, weightedEnergy_addEnergy, weightedEnergy_one, mul_one]

theorem sum_values_foldl_addEnergy {ι : Type} (tensors : List ι) (idOf : ι → String)
    (norm : ι → Rat) (energy : Dict Rat) :
    (tensors.foldl (fun energy tensor =>
        addEnergy energy (idOf tensor) (norm tensor)) energy).values.sum =
      energy.values.sum + (tensors.map norm).sum := by
  induction tensors generalizing energy with
  | nil => simp
  | cons tensor rest ih =>
      rw [List.foldl_cons, ih, sum_values_addEnergy, List.map_cons, List.sum_cons, add_assoc]

theorem sum_values_ofNorms {a : Architecture} {norms : List (String × Rat)} :
    (ofNorms a norms).energy.values.sum = (norms.map Prod.snd).sum := by
  have hscan := sum_values_foldl_addEnergy norms
    (fun tensor => (Block.ofKey a.layout tensor.1).id) Prod.snd ∅
  exact hscan.trans (zero_add _)

/-! ## The energy of each block -/

theorem getD_addEnergy (energy : Dict Rat) (id other : String) (norm : Rat) :
    ((addEnergy energy id norm).get? other).getD 0 =
      (energy.get? other).getD 0 + if other = id then norm else 0 := by
  rw [addEnergy, scalar_zero_eq, Dict.get?_insert]
  by_cases hsame : other = id
  · simp [hsame]
  · simp [hsame]

theorem getD_foldl_addEnergy {ι : Type} (tensors : List ι) (idOf : ι → String) (norm : ι → Rat)
    (energy : Dict Rat) (id : String) :
    ((tensors.foldl (fun energy tensor =>
        addEnergy energy (idOf tensor) (norm tensor)) energy).get? id).getD 0 =
      (energy.get? id).getD 0 + ((tensors.filter fun tensor => idOf tensor = id).map norm).sum := by
  induction tensors generalizing energy with
  | nil => simp
  | cons tensor rest ih =>
      rw [List.foldl_cons, ih, getD_addEnergy, List.filter_cons, add_assoc]
      by_cases hsame : idOf tensor = id
      · simp [hsame]
      · simp [hsame, Ne.symm hsame]

/-! ## The energy of roles -/

/-- Each entry has exactly one role, so summing role by role counts it once. -/
theorem sum_over_roles {ι : Type} (roleOf : ι → Role) (value : ι → Rat) (entries : List ι) :
    (Role.all.map fun role =>
      ((entries.filter fun entry => roleOf entry = role).map value).sum).sum =
        (entries.map value).sum := by
  induction entries with
  | nil => simp [Role.all]
  | cons entry rest ih =>
      rw [List.map_cons, List.sum_cons, ← ih]
      cases hrole : roleOf entry with
      | _ => simp [Role.all, hrole]; ring

theorem sum_energyByRole (s : Statistics Rat) :
    (s.energyByRole.map Prod.snd).sum = s.energy.values.sum := by
  rw [energyByRole, sum_filterMap]
  refine Eq.trans (congrArg List.sum ?_) (sum_over_roles (fun entry => s.roleOf entry.1) Prod.snd
    s.energy.toList)
  -- A role without blocks is left out, and the sum of no energies is zero, too.
  refine List.map_congr_left fun role _ => ?_
  cases s.energy.toList.filter fun entry => s.roleOf entry.1 = role with
  | nil => rfl
  | cons entry rest =>
      have hfold := foldl_add_map_eq Prod.snd (entry :: rest) 0
      rw [zero_add] at hfold
      simpa using hfold

/-! ## Accounts -/

/-- The block of one of the tensors of a file and what is recorded about it. -/
def blockAmong (a : Architecture) (norms : List (String × Rat)) (tensor : String × Rat) :
    String × BlockRecord :=
  blockOf a (Block.layerCount (norms.map Prod.fst)) tensor.1

/-- Statistics that account for all norms of the tensors of a file. -/
structure Accounts (a : Architecture) (norms : List (String × Rat)) (s : Statistics Rat) : Prop where
  sameBlocks : s.energy.keys = s.blocks.keys
  /-- The blocks are those of the tensors. -/
  blocks : ∀ id, id ∈ s.energy.keys ↔ ∃ tensor ∈ norms, (blockAmong a norms tensor).1 = id
  /-- A block has the norms of its tensors. -/
  ofBlock : ∀ id ∈ s.energy.keys, s.energy.get? id = some
    ((norms.filter fun tensor => (blockAmong a norms tensor).1 = id).map Prod.snd).sum
  total : s.totalEnergy = (norms.map Prod.snd).sum
  ofBlocks : s.distributedEnergy = (norms.map Prod.snd).sum
  ofRoles : (s.energyByRole.map Prod.snd).sum = (norms.map Prod.snd).sum
  /-- What is recorded about a block is right about each of its tensors. -/
  records : ∀ tensor ∈ norms, s.blocks.get? (blockAmong a norms tensor).1 =
    some (blockAmong a norms tensor).2

variable {a : Architecture} {norms : List (String × Rat)}

theorem mem_keys_blocks_ofNorms {id : String} :
    id ∈ (ofNorms a norms).blocks.keys ↔
      ∃ tensor ∈ norms, id = (Block.ofKey a.layout tensor.1).id := by
  have hfold := get?_foldl_recordBlock norms
    (fun tensor => blockOf a (Block.layerCount (norms.map Prod.fst)) tensor.1) ∅ id
  rw [Dict.get?_empty, Option.none_or] at hfold
  rw [Dict.mem_keys_iff]
  refine (Bool.eq_iff_iff.mp (congrArg Option.isSome hfold)).trans ?_
  rw [Option.isSome_map, List.find?_isSome]
  exact exists_congr fun tensor => and_congr_right fun _ => decide_eq_true_iff

theorem accounts_ofNorms : Accounts a norms (ofNorms a norms) where
  sameBlocks := Dict.keys_eq_of_mem_iff fun id =>
    mem_blockIds_ofNorms.trans mem_keys_blocks_ofNorms.symm
  blocks id := mem_blockIds_ofNorms.trans <| exists_congr fun tensor =>
    and_congr_right fun _ => eq_comm
  ofBlock id hid := by
    -- Which tensors a block has does not depend on the layer count, so the scan counts by id.
    have hsum := getD_foldl_addEnergy norms
      (fun tensor => (Block.ofKey a.layout tensor.1).id) Prod.snd ∅ id
    rw [Dict.get?_empty, Option.getD_none, zero_add] at hsum
    obtain ⟨energy, henergy⟩ := Option.isSome_iff_exists.mp (Dict.mem_keys_iff.mp hid)
    rw [henergy]
    refine congrArg some (Eq.trans ?_ hsum)
    exact (congrArg (Option.getD · 0) henergy).symm
  total := by
    have hfold := foldl_add_map_eq Prod.snd norms 0
    rw [zero_add] at hfold
    rw [ofNorms, scalar_zero_eq]
    exact hfold
  ofBlocks := (scalar_sum_eq _).trans sum_values_ofNorms
  ofRoles := (sum_energyByRole _).trans sum_values_ofNorms
  records tensor htensor := get?_blocks_ofNorms (List.mem_map_of_mem htensor)

/-! ## Reordering -/

theorem layerCount_of_perm {keys reordered : List String} (hperm : reordered.Perm keys) :
    Block.layerCount reordered = Block.layerCount keys := by
  unfold Block.layerCount
  rw [(hperm.filterMap _).foldl_eq 0]

theorem blockAmong_of_perm {reordered : List (String × Rat)} (hperm : reordered.Perm norms) :
    blockAmong a reordered = blockAmong a norms := by
  unfold blockAmong
  rw [layerCount_of_perm (hperm.map Prod.fst)]

/-- What accounts for norms accounts for them in any order. -/
theorem Accounts.of_perm {reordered : List (String × Rat)} {s : Statistics Rat}
    (haccounts : Accounts a reordered s) (hperm : reordered.Perm norms) : Accounts a norms s := by
  obtain ⟨hsame, hblocks, hblock, htotal, hall, hroles, hrecords⟩ := haccounts
  rw [blockAmong_of_perm hperm] at hblocks hblock hrecords
  have hnorms := (hperm.map Prod.snd).sum_eq
  refine ⟨hsame, fun id => ?_, fun id hid => ?_, htotal.trans hnorms, hall.trans hnorms,
    hroles.trans hnorms, fun tensor htensor => hrecords tensor (hperm.mem_iff.mpr htensor)⟩
  · rw [hblocks]
    exact exists_congr fun tensor => and_congr_left fun _ => hperm.mem_iff
  · rw [hblock id hid, ((hperm.filter _).map Prod.snd).sum_eq]

theorem Accounts.energy_unique {s t : Statistics Rat} (hs : Accounts a norms s)
    (ht : Accounts a norms t) : s.energy = t.energy := by
  have hkeys (id : String) : id ∈ s.energy.keys ↔ id ∈ t.energy.keys :=
    (hs.blocks id).trans (ht.blocks id).symm
  refine Dict.ext_get? fun id => ?_
  by_cases hid : id ∈ s.energy.keys
  · rw [hs.ofBlock id hid, ht.ofBlock id ((hkeys id).mp hid)]
  · rw [Dict.get?_eq_none_iff.mpr hid, Dict.get?_eq_none_iff.mpr (mt (hkeys id).mpr hid)]

theorem Accounts.blocks_unique {s t : Statistics Rat} (hs : Accounts a norms s)
    (ht : Accounts a norms t) : s.blocks = t.blocks := by
  have hkeys : s.blocks.keys = t.blocks.keys := by
    rw [← hs.sameBlocks, ← ht.sameBlocks, hs.energy_unique ht]
  refine Dict.ext_get? fun id => ?_
  by_cases hid : id ∈ s.blocks.keys
  · -- Some tensor is of the block, and both are right about it.
    obtain ⟨tensor, htensor, rfl⟩ := (hs.blocks id).mp (hs.sameBlocks ▸ hid)
    rw [hs.records tensor htensor, ht.records tensor htensor]
  · rw [Dict.get?_eq_none_iff.mpr hid, Dict.get?_eq_none_iff.mpr (hkeys ▸ hid)]

theorem ofNorms_of_perm {reordered : List (String × Rat)} (hperm : reordered.Perm norms) :
    ofNorms a reordered = ofNorms a norms := by
  have hreordered : Accounts a norms (ofNorms a reordered) := accounts_ofNorms.of_perm hperm
  have hnorms : Accounts a norms (ofNorms a norms) := accounts_ofNorms
  -- Sparsity and balance are computed from the energy of the blocks.
  have hparts (list : List (String × Rat)) : ofNorms a list =
      ⟨(ofNorms a list).totalEnergy, (ofNorms a list).energy, (ofNorms a list).blocks,
        gini (ofNorms a list).energy.values, balanceOf (ofNorms a list).energy⟩ := rfl
  rw [hparts reordered, hparts norms, hreordered.energy_unique hnorms,
    hreordered.blocks_unique hnorms, hreordered.total, hnorms.total]

/-- **Statistics lose no energy**, and are the same for the tensors in any order. -/
theorem ofNorms_accounts_in_any_order (a : Architecture) (norms : List (String × Rat)) :
    Accounts a norms (ofNorms a norms) ∧
      ∀ reordered, reordered.Perm norms → ofNorms a reordered = ofNorms a norms :=
  ⟨accounts_ofNorms, fun _ hperm => ofNorms_of_perm hperm⟩

/-- Two tensors of one block and one of another; the first two change places. -/
theorem ofNorms_swapped :
    let first := ("double_blocks.0.img_attn.weight", (3 : Rat))
    let second := ("DOUBLE_BLOCKS_0_txt_mlp", (1 / 2 : Rat))
    let third := ("single_blocks.4.linear1", (2 : Rat))
    [second, first, third].Perm [first, second, third] ∧
      ofNorms .flux1 [second, first, third] = ofNorms .flux1 [first, second, third] ∧
      (ofNorms .flux1 [first, second, third]).energy.toList =
        [("double_0", 7 / 2), ("single_4", 2)] := by
  intro first second third
  have hperm : [second, first, third].Perm [first, second, third] := List.Perm.swap _ _ _
  refine ⟨hperm, (ofNorms_accounts_in_any_order .flux1 _).2 _ hperm, ?_⟩
  decide +kernel

end LoraSchedule.Statistics
