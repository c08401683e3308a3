import LoraSchedule.Architecture.Keyword
import LoraSchedule.Container.Header

/-!
# Recognizing a family by a header

A header names its family in the metadata, or shows it by the names of its tensors.
-/

namespace LoraSchedule.Container.Header

/-- The name under which trainers note the base model. -/
def baseModelKey : String := "ss_base_model_version"

/-- Whether some tensor has a text in its name. -/
def hasNameWith (h : Header) (text : String) : Bool :=
  h.tensors.keys.any fun name => Text.containsText text.toList name.toList

/-- The family by the last dimension of a projection that reduces it. -/
def familyOfWidth? : Nat → Option Architecture
  | 320 => some .sd15
  | 768 | 1024 | 1280 => some .sd21
  | 640 => some .sdxl
  | _ => none

/-- The family by the shape of a tensor, if it is a reducing projection. -/
def familyOfTensor? (name : String) (record : TensorRecord) : Option Architecture :=
  let has (text : String) : Bool := Text.containsText text.toList name.toList
  if (has "to_k" || has "linear") && has "down" then record.shape.getLast? >>= familyOfWidth?
  else none

/-- The family by the names of the tensors, or else by the first shape that shows one. -/
def familyOfTensors? (h : Header) : Option Architecture :=
  if h.hasNameWith "double_blocks" || h.hasNameWith "img_in" then some .flux1
  else if h.hasNameWith "joint_blocks" then some .sd3
  else if h.hasNameWith "input_blocks" then some .sdxl
  else if h.hasNameWith "down_blocks" then some .sd15
  else if h.hasNameWith "layers.0" then
    if h.hasNameWith "final_layer" then some .aura
    else if h.hasNameWith "visual" then some .lumina
    else some .qwen
  else if h.hasNameWith "h.0" then some .hunyuanVideo
  else h.tensors.toList.findSome? fun tensor => familyOfTensor? tensor.1 tensor.2

/-- The family of a header: as noted in the metadata, else by its tensors. -/
def family? (h : Header) : Option Architecture :=
  match h.metadataText? baseModelKey >>= Architecture.ofKeyword? with
  | some family => some family
  | none => h.familyOfTensors?

end LoraSchedule.Container.Header
