import LoraSchedule.Dict.Lemmas
import LoraSchedule.Proofs.Block.Id
import LoraSchedule.Statistics.OfNorms

/-!
# What statistics record about blocks

A block is recorded when its first tensor is met, and the record stays.  As
tensors with one block id belong to the same block, the record is right about
all of them (`get?_blocks_ofNorms`).
-/

namespace LoraSchedule.Statistics

open LoraSchedule.Number (Scalar)

variable {α : Type} [Scalar α]

/-! ## Adding and recording -/

theorem get?_recordBlock (blocks : Dict BlockRecord) (id other : String) (record : BlockRecord) :
    (recordBlock blocks id record).get? other =
      (blocks.get? other).or (if other = id then some record else none) := by
  unfold recordBlock Dict.contains
  by_cases hsame : other = id
  · subst hsame
    cases hfound : blocks.get? other with
    | none => simp
    | some found => simp [hfound]
  · rw [if_neg hsame, Option.or_none]
    split
    · rfl
    · exact Dict.get?_insert_of_ne _ _ hsame

/-- What is recorded in the end: of a block that was recorded before, that
record, else that of its first tensor. -/
theorem get?_foldl_recordBlock {ι : Type} (tensors : List ι) (blockOf : ι → String × BlockRecord)
    (blocks : Dict BlockRecord) (id : String) :
    (tensors.foldl (fun blocks tensor =>
        recordBlock blocks (blockOf tensor).1 (blockOf tensor).2) blocks).get? id =
      (blocks.get? id).or
        ((tensors.find? fun tensor => id = (blockOf tensor).1).map fun tensor =>
          (blockOf tensor).2) := by
  induction tensors generalizing blocks with
  | nil => simp
  | cons tensor rest ih =>
      rw [List.foldl_cons, ih, get?_recordBlock, List.find?_cons]
      by_cases hsame : id = (blockOf tensor).1
      · cases blocks.get? id <;> simp [hsame]
      · simp [hsame]

theorem mem_keys_addEnergy {energy : Dict α} {id other : String} {norm : α} :
    other ∈ (addEnergy energy id norm).keys ↔ other = id ∨ other ∈ energy.keys := by
  rw [Dict.mem_keys_iff, Dict.mem_keys_iff, addEnergy, Dict.get?_insert]
  split <;> simp [*]

theorem mem_keys_foldl_addEnergy {ι : Type} (tensors : List ι) (idOf : ι → String) (norm : ι → α)
    (energy : Dict α) (id : String) :
    id ∈ (tensors.foldl (fun energy tensor =>
        addEnergy energy (idOf tensor) (norm tensor)) energy).keys ↔
      id ∈ energy.keys ∨ ∃ tensor ∈ tensors, id = idOf tensor := by
  induction tensors generalizing energy with
  | nil => simp
  | cons tensor rest ih =>
      rw [List.foldl_cons, ih, mem_keys_addEnergy, List.exists_mem_cons_iff]
      tauto

/-! ## The statistics of a file -/

variable {a : Architecture} {norms : List (String × α)}

/-- **The blocks with energy are those of the tensors.** -/
theorem mem_blockIds_ofNorms {id : String} :
    id ∈ (ofNorms a norms).blockIds ↔
      ∃ tensor ∈ norms, id = (Block.ofKey a.layout tensor.1).id := by
  have hkeys := mem_keys_foldl_addEnergy norms (fun tensor => (Block.ofKey a.layout tensor.1).id)
    Prod.snd (∅ : Dict α) id
  have hempty : id ∉ (∅ : Dict α).keys := by simp [Dict.mem_keys_iff]
  exact hkeys.trans (or_iff_right hempty)

/-- **What is recorded about the block of a tensor is right about that tensor**,
whichever tensor of the block came first. -/
theorem get?_blocks_ofNorms {key : String} (hkey : key ∈ norms.map Prod.fst) :
    (ofNorms a norms).blocks.get? (Block.ofKey a.layout key).id =
      some (blockOf a (Block.layerCount (norms.map Prod.fst)) key).2 := by
  set count := Block.layerCount (norms.map Prod.fst) with hcount
  have hfold := get?_foldl_recordBlock norms (fun tensor => blockOf a count tensor.1) ∅
    (Block.ofKey a.layout key).id
  refine hfold.trans ?_
  rw [Dict.get?_empty, Option.none_or, Option.map_eq_some_iff]
  -- Some tensor of the block is found, and it need not be the one that was asked for.
  obtain ⟨tensor, htensor, rfl⟩ := List.mem_map.mp hkey
  have hfound : (norms.find? fun other =>
      (Block.ofKey a.layout tensor.1).id = (blockOf a count other.1).1).isSome := by
    rw [List.find?_isSome]
    exact ⟨tensor, htensor, by simp [blockOf]⟩
  obtain ⟨first, hfirst⟩ := Option.isSome_iff_exists.mp hfound
  have hmatch := List.find?_some hfirst
  have hid : (Block.ofKey a.layout tensor.1).id = (Block.ofKey a.layout first.1).id :=
    of_decide_eq_true hmatch
  have hblock := Block.id_injective hid
  refine ⟨first, hfirst, ?_⟩
  simp only [blockOf, hblock]

end LoraSchedule.Statistics
