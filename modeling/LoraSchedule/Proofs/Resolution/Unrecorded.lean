import LoraSchedule.Proofs.Block.Reread
import LoraSchedule.Proofs.Json.Fields
import LoraSchedule.Proofs.Resolution.Weights

/-!
# Weights of blocks without records

A preset weighs a block by its recorded role.  Without a record the role is read off
the id of the block, and the number of layers of its file is not known then.  So
weights stay the same exactly where the preset has one factor for both roles
(`presetWeights_keptRecords`); a short file is enough to make them differ
(`presetWeights_depend_on_records`).
-/

namespace LoraSchedule

open LoraSchedule.Number (Binary Double Scalar)
open LoraSchedule.Statistics (ofNorms)

/-! ## Roles -/

/-- The records of some ids. -/
def keptRecords (recorded : String → Bool) (records : Dict BlockRecord) : Dict BlockRecord :=
  records.filter fun id _ => recorded id

theorem roleOfId_keptRecords (a : Architecture) (recorded : String → Bool)
    (records : Dict BlockRecord) (id : String) :
    roleOfId a (keptRecords recorded records) id =
      if recorded id then roleOfId a records id else roleOfId a ∅ id := by
  unfold roleOfId keptRecords
  rw [Dict.get?_filter_key]
  cases recorded id <;> rfl

variable {α : Type} [Scalar α] {a : Architecture} {norms : List (String × α)}

/-- With all records a block has the role of its tensors. -/
theorem roleOfId_blocks {key : String} (hkey : key ∈ norms.map Prod.fst) :
    roleOfId a (ofNorms a norms).blocks (Block.ofKey a.layout key).id =
      (Block.ofKey a.layout key).role a.layout (Block.layerCount (norms.map Prod.fst)) := by
  rw [roleOfId, Statistics.get?_blocks_ofNorms hkey]
  rfl

/-- **Without its record a shared block has a role, too**, as in a file with the
default number of layers. -/
theorem roleOfId_shared {key : String} (hshared : (Block.ofKey a.layout key).isShared = true) :
    roleOfId a ∅ (Block.ofKey a.layout key).id =
      (Block.ofKey a.layout key).role a.layout Block.defaultLayerCount := by
  rw [Block.role_defaultLayerCount]
  exact Block.role_ofKey_id a.layout (Block.fromName_ofKey a.layout key) hshared

/-! ## Weights -/

/-- Two records give the same weights if the factors for the roles are the same. -/
theorem presetWeights_eq_iff {preset : String} {ids : List String}
    {first second : Dict BlockRecord} :
    presetWeights a preset ids first = presetWeights a preset ids second ↔
      ∀ id ∈ ids, Preset.factor? preset (roleOfId a first id) =
        Preset.factor? preset (roleOfId a second id) := by
  constructor
  · intro h id hid
    have hget := congrArg (fun weights => Dict.get? weights id) h
    rwa [get?_presetWeights, get?_presetWeights, if_pos hid, if_pos hid] at hget
  · intro h
    refine Dict.ext_get? fun id => ?_
    rw [get?_presetWeights, get?_presetWeights]
    by_cases hid : id ∈ ids
    · rw [if_pos hid, if_pos hid, h id hid]
    · rw [if_neg hid, if_neg hid]

theorem forall_mem_blockIds {p : String → Prop} :
    (∀ id ∈ (ofNorms a norms).blockIds, p id) ↔
      ∀ key ∈ norms.map Prod.fst, p (Block.ofKey a.layout key).id := by
  rw [List.forall_mem_map]
  constructor
  · intro h tensor htensor
    exact h _ (Statistics.mem_blockIds_ofNorms.mpr ⟨tensor, htensor, rfl⟩)
  · intro h id hid
    obtain ⟨tensor, htensor, rfl⟩ := Statistics.mem_blockIds_ofNorms.mp hid
    exact h tensor htensor

/-- **The weights are the same if and only if each block without a record has the same
factor**, of its role in the file and of the role that its id tells. -/
theorem presetWeights_keptRecords_iff {preset : String} {recorded : String → Bool} :
    presetWeights a preset (ofNorms a norms).blockIds
          (keptRecords recorded (ofNorms a norms).blocks) =
        presetWeights a preset (ofNorms a norms).blockIds (ofNorms a norms).blocks ↔
      ∀ key ∈ norms.map Prod.fst, recorded (Block.ofKey a.layout key).id = false →
        Preset.factor? preset (roleOfId a ∅ (Block.ofKey a.layout key).id) =
          Preset.factor? preset ((Block.ofKey a.layout key).role a.layout
            (Block.layerCount (norms.map Prod.fst))) := by
  rw [presetWeights_eq_iff, forall_mem_blockIds]
  refine forall₂_congr fun key hkey => ?_
  rw [roleOfId_keptRecords, roleOfId_blocks hkey]
  cases recorded (Block.ofKey a.layout key).id <;> simp

/-- So they are if only shared blocks have no record, and if their layers have the same
role in a file with the default number of layers. -/
theorem presetWeights_keptRecords_of_shared {preset : String} {recorded : String → Bool}
    (h : ∀ key ∈ norms.map Prod.fst, recorded (Block.ofKey a.layout key).id = false →
      (Block.ofKey a.layout key).isShared = true ∧ ∀ n, Block.ofKey a.layout key = .layer n →
        Block.layerRole Block.defaultLayerCount n =
          Block.layerRole (Block.layerCount (norms.map Prod.fst)) n) :
    presetWeights a preset (ofNorms a norms).blockIds
        (keptRecords recorded (ofNorms a norms).blocks) =
      presetWeights a preset (ofNorms a norms).blockIds (ofNorms a norms).blocks := by
  refine presetWeights_keptRecords_iff.mpr fun key hkey hrecorded => ?_
  obtain ⟨hshared, hlayer⟩ := h key hkey hrecorded
  rw [roleOfId_shared hshared, Block.role_congr hlayer]

/-- **The weights of blocks without records.**  A block of a file has the factor of its
role, and without its record the factor of the role that its id tells; for a shared
block that is its role in a file with the default number of layers.  The weights are
the same if and only if these factors are.  So they are if records are missing of
shared blocks only, and the layers among these have the same role in both files; and
they always are if the layout has no words of its own and the file has the default
number of layers. -/
theorem presetWeights_keptRecords (a : Architecture) (norms : List (String × α)) (preset : String)
    (recorded : String → Bool) :
    let names := norms.map Prod.fst
    let count := Block.layerCount names
    let s := ofNorms a norms
    let whole := presetWeights a preset s.blockIds s.blocks
    let kept := presetWeights a preset s.blockIds (keptRecords recorded s.blocks)
    (∀ name ∈ names,
      let b := Block.ofKey a.layout name
      whole.get? b.id = Preset.factor? preset (b.role a.layout count) ∧
      kept.get? b.id = Preset.factor? preset
        (if recorded b.id then b.role a.layout count else roleOfId a ∅ b.id) ∧
      (b.isShared = true →
        roleOfId a ∅ b.id = b.role a.layout Block.defaultLayerCount)) ∧
    (kept = whole ↔ ∀ name ∈ names,
      let b := Block.ofKey a.layout name
      recorded b.id = false →
        Preset.factor? preset (roleOfId a ∅ b.id) =
          Preset.factor? preset (b.role a.layout count)) ∧
    ((∀ name ∈ names,
      let b := Block.ofKey a.layout name
      recorded b.id = false → b.isShared = true ∧ ∀ n, b = .layer n →
        Block.layerRole Block.defaultLayerCount n = Block.layerRole count n) →
      kept = whole) ∧
    (a.layout = .numberedLayers → count = Block.defaultLayerCount → kept = whole) := by
  intro names count s whole kept
  refine ⟨?_, presetWeights_keptRecords_iff, presetWeights_keptRecords_of_shared, ?_⟩
  · intro name hname b
    have hlisted : b.id ∈ s.blockIds := forall_mem_blockIds.mp (fun id hid => hid) name hname
    refine ⟨?_, ?_, roleOfId_shared⟩
    · rw [get?_presetWeights, if_pos hlisted, roleOfId_blocks hname]
    · rw [get?_presetWeights, if_pos hlisted, roleOfId_keptRecords, roleOfId_blocks hname]
  · intro hlayout hcount
    apply presetWeights_keptRecords_of_shared
    intro name _ _
    refine ⟨?_, fun n _ => ?_⟩
    · rw [hlayout]
      exact Block.isShared_ofKey_numberedLayers name
    · rw [← hcount]

/-- A file of 28 layers, of which the last one is told by its id. -/
theorem presetWeights_keptRecords_last :
    let norms := [("model.layers.27.w", (Binary.ofNat 1 : Double))]
    let s := ofNorms .qwen norms
    Block.layerCount (norms.map Prod.fst) = Block.defaultLayerCount ∧
      presetWeights .qwen "STYLE_FOCUSED" s.blockIds (keptRecords (fun _ => false) s.blocks) =
        presetWeights .qwen "STYLE_FOCUSED" s.blockIds s.blocks ∧
      (presetWeights .qwen "STYLE_FOCUSED" s.blockIds s.blocks).get? "layers_27" =
        some (Binary.ofDecimal ⟨false, 16, -1⟩) := by
  intro norms s
  have hcount : Block.layerCount (norms.map Prod.fst) = Block.defaultLayerCount := by decide +kernel
  obtain ⟨-, -, -, hsame⟩ :=
    presetWeights_keptRecords .qwen norms "STYLE_FOCUSED" fun _ => false
  exact ⟨hcount, hsame rfl hcount, by decide +kernel⟩

/-- In a file of six layers the last one is taken for an early one of 28. -/
theorem presetWeights_depend_on_records :
    ¬ ∀ (a : Architecture) (norms : List (String × Double)) (preset : String)
        (recorded : String → Bool),
      presetWeights a preset (ofNorms a norms).blockIds
          (keptRecords recorded (ofNorms a norms).blocks) =
        presetWeights a preset (ofNorms a norms).blockIds (ofNorms a norms).blocks := by
  intro h
  have hsame := h .qwen [("layers.5.w", Binary.ofNat 1)] "STYLE_FOCUSED" fun _ => false
  revert hsame
  decide +kernel

end LoraSchedule
