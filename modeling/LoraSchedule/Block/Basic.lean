import LoraSchedule.Architecture.Basic
import LoraSchedule.Block.Pattern
import LoraSchedule.Block.Role
import LoraSchedule.Number.Scalar
import LoraSchedule.Text.Lowercase

/-!
# Blocks

The block that a tensor belongs to is read off its name.  `Block.ofKey` finds it; its id, its role
and its group depend on the block alone, except that the role also takes into account how a family
numbers its blocks and how many layers a file has.
-/

namespace LoraSchedule

open LoraSchedule.Number (Binary Double)

/-- A block of a model. -/
inductive Block
  | clipEncoder
  /-- A layer of the text encoder, by the digits of its number as they are written. -/
  | clipLayer (digits : List Char)
  | embeddings
  | input (index : Nat)
  | middle
  | output (index : Nat)
  | double (index : Nat)
  | single (index : Nat)
  | joint (index : Nat)
  | layer (index : Nat)
  | other
deriving DecidableEq

namespace Block

open LoraSchedule.Text

/-! ## Finding the block of a tensor -/

/-- Parts of names that only tensors of text encoders have. -/
def clipMarkers : List String :=
  ["te_", "text_model", "text_encoder", "clip_l", "clip_g", "t5", "encoder", "txt_proj",
    "logit_scale"]

/-- Parts of the names of embeddings and of projections at the ends of a model. -/
def embeddingMarkers : List String :=
  ["time_embed", "label_embed", "vector_in", "img_in", "guidance_in", "final_layer", "norm_out",
    "proj_out"]

def hasMarker (markers : List String) (key : List Char) : Bool :=
  markers.any fun marker => containsText marker.toList key

/-- The number that follows a word in a name; 0 where there is none, or none in range. -/
def indexAfter (word : String) (key : List Char) : Nat :=
  ((numberAfter? (afterPrefix? word.toList) key) >>= wordValue?).getD 0

/-- The number of a text encoder layer, as written. -/
def clipDigits? (key : List Char) : Option (List Char) :=
  numberAfter? (fun text =>
    (afterPrefix? "layers".toList text).or (afterPrefix? "layer".toList text)) key

/-- The number of a layer of any family. -/
def layerIndex? (key : List Char) : Option Nat :=
  numberAfter? (fun text =>
    ((afterWord? "layers".toList text).or (afterWord? "blocks".toList text)).or
      (afterWord? "h".toList text)) key >>= wordValue?

/-- The block that a layout has its own word for. -/
def ofLayout? (layout : BlockLayout) (key : List Char) : Option Block :=
  let has (word : String) : Bool := containsText word.toList key
  match layout with
  | .sdxlUnet | .legacyUnet =>
    if has "input_block" then some (.input (indexAfter "input_blocks" key))
    else if has "middle_block" then some .middle
    else if has "output_block" then some (.output (indexAfter "output_blocks" key))
    else none
  | .fluxStream =>
    if has "double_block" then some (.double (indexAfter "double_blocks" key))
    else if has "single_block" then some (.single (indexAfter "single_blocks" key))
    else none
  | .jointBlocks =>
    if has "joint_block" then some (.joint (indexAfter "joint_blocks" key)) else none
  | .numberedLayers => none

/-- The block of a tensor.  The text encoder comes first, then embeddings, then the words of the
layout, then any numbered layer. -/
def ofKey (layout : BlockLayout) (name : String) : Block :=
  let key := lowercase name.toList
  if hasMarker clipMarkers key then
    match clipDigits? key with
    | some digits => .clipLayer digits
    | none => .clipEncoder
  else if hasMarker embeddingMarkers key then .embeddings
  else
    match ofLayout? layout key with
    | some block => block
    | none =>
      match layerIndex? key with
      | some index => .layer index
      | none => .other

/-! ## Ids -/

/-- A word and a number joined by an underscore. -/
def numbered (word : String) (index : Nat) : String := word ++ "_" ++ index.repr

/-- The id of a block. -/
def id : Block → String
  | clipEncoder => "clip_encoder"
  | clipLayer digits => "clip_layer_" ++ String.ofList digits
  | embeddings => "specialized_embeds"
  | input n => numbered "input" n
  | middle => "middle_0"
  | output n => numbered "output" n
  | double n => numbered "double" n
  | single n => numbered "single" n
  | joint n => numbered "joint" n
  | layer n => numbered "layers" n
  | other => "misc"

/-! ## Roles -/

/-- Early blocks up to `pose` have that role, those up to `identity` the next, and so on. -/
def roleUpTo (pose identity style index : Nat) : Role :=
  if index ≤ pose then .pose
  else if index ≤ identity then .identity
  else if index ≤ style then .style
  else .details

/-- The layer count assumed for a file of which it is not known. -/
def defaultLayerCount : Nat := 28

/-- The role of a numbered layer, by its relative position. -/
def layerRole (layerCount index : Nat) : Role :=
  let count := if 0 < layerCount then layerCount else defaultLayerCount
  let position : Double := Binary.ofNat index / Binary.ofNat count
  let isBefore (hundredths : Nat) : Bool :=
    position.less (Binary.ofDecimal ⟨false, hundredths, -2⟩)
  if isBefore 30 then .pose
  else if isBefore 60 then .identity
  else if isBefore 80 then .style
  else .details

/-- The role of a block of a family in a file with this many layers; zero stands for a number that
is not known. -/
def role (layout : BlockLayout) (layerCount : Nat) : Block → Role
  | clipEncoder | clipLayer _ => .clip
  | embeddings | other => .other
  | input n => if layout = .legacyUnet ∧ 8 < n then .identity else .pose
  | middle => .identity
  | output n =>
    if n ≤ 2 then .identity
    else if n ≤ (if layout = .legacyUnet then 8 else 5) then .style
    else .details
  | double n => if n ≤ 10 then .pose else .identity
  | single n => if n ≤ 20 then .style else .details
  | joint n => roleUpTo 5 11 17 n
  | layer n => layerRole layerCount n

/-! ## Files -/

/-- One more than the highest layer number among the tensors of a file, in sixty-four bits: after
the highest of all numbers, no number is known. -/
def layerCount (keys : List String) : Nat :=
  ((keys.filterMap fun key => layerIndex? key.toList).foldl max 0 + 1) % Nat.pow 2 64

end Block

/-! ## Groups -/

namespace BlockGroup

open LoraSchedule.Block (afterWord? containsWord)

/-- Words that an id of the group starts with, and words that it contains. -/
def words : BlockGroup → List String × List String
  | clip => (["clip", "te_", "text_"], [])
  | input => ([], ["input", "down", "double"])
  | middle => ([], ["middle", "mid", "joint"])
  | output => ([], ["output", "up", "single"])
  | layers => (["layers"], [])
  | aux => ([], [""])

/-- Whether an id has the words of a group, in letters of any form. -/
def matchesId (group : BlockGroup) (id : List Char) : Bool :=
  (group.words.1.any fun word => (afterWord? word.toList id).isSome) ||
    group.words.2.any fun word => containsWord word.toList id

/-- The group of a block id: the first whose words it has. -/
def ofId (id : String) : BlockGroup := (all.find? fun group => group.matchesId id.toList).getD aux

/-- The patterns of a group as regular expressions. -/
def patterns (group : BlockGroup) : List String :=
  if group = aux then [".*"] else group.words.1.map ("^" ++ ·) ++ group.words.2

end BlockGroup

end LoraSchedule
