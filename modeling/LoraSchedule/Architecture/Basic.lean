import LoraSchedule.Text.Basic

/-!
# Architecture families

Every LoRA file is made for one family of base models.  The family decides how tensor names are
laid out in blocks.
-/

namespace LoraSchedule

/-- A family of base models.  Pony, Illustrious, NoobAI and realism are lineages of SDXL. -/
inductive Architecture
  | flux1
  | flux2
  | sd15
  | sd21
  | sd3
  | sdxl
  | pony
  | illustrious
  | noobai
  | realism
  | qwen
  | aura
  | lumina
  | hunyuanVideo
  | chroma
  | hidream
  | zImageTurbo
  | unknown
deriving DecidableEq, Inhabited

/-- How the tensors of a family are named. -/
inductive BlockLayout
  /-- Input, middle and output blocks as in SDXL. -/
  | sdxlUnet
  /-- Input, middle and output blocks as in the first two Stable Diffusion versions. -/
  | legacyUnet
  /-- Double and single stream blocks. -/
  | fluxStream
  /-- Joint blocks. -/
  | jointBlocks
  /-- Nothing but numbered layers. -/
  | numberedLayers
deriving DecidableEq

namespace Architecture

/-- All families, in the order in which names are compared. -/
def all : List Architecture :=
  [flux1, flux2, sd15, sd21, sd3, sdxl, pony, illustrious, noobai, realism, qwen, aura, lumina,
    hunyuanVideo, chroma, hidream, zImageTurbo, unknown]

/-- The canonical name of a family. -/
def name : Architecture → String
  | flux1 => "FLUX.1"
  | flux2 => "FLUX.2"
  | sd15 => "SD15"
  | sd21 => "SD21"
  | sd3 => "SD3"
  | sdxl => "SDXL"
  | pony => "SDXL_PONY"
  | illustrious => "SDXL_ILLUSTRIOUS"
  | noobai => "SDXL_NOOBAI"
  | realism => "SDXL_REALISM"
  | qwen => "QWEN"
  | aura => "AURA"
  | lumina => "LUMINA"
  | hunyuanVideo => "HYVID"
  | chroma => "CHROMA"
  | hidream => "HIDREAM"
  | zImageTurbo => "ZIMAGETURBO"
  | unknown => "UNKNOWN"

/-- The layout of a family.  Files of unknown family are read as SDXL, which most are. -/
def layout : Architecture → BlockLayout
  | sdxl | pony | illustrious | noobai | realism | unknown => .sdxlUnet
  | flux1 | flux2 => .fluxStream
  | sd15 | sd21 => .legacyUnet
  | sd3 => .jointBlocks
  | qwen | aura | lumina | hunyuanVideo | chroma | hidream | zImageTurbo => .numberedLayers

/-- SDXL or one of its lineages. -/
def isSdxlFamily : Architecture → Bool
  | sdxl | pony | illustrious | noobai | realism => true
  | _ => false

/-- Whether a more specific family may still be found: true of SDXL without a lineage. -/
def isGeneric (a : Architecture) : Bool := a = sdxl

/-- The family with a canonical name; blanks around it and the case of its letters do not
matter. -/
def ofName? (text : String) : Option Architecture :=
  let wanted := Text.trim text.toList
  all.find? fun a => Text.equalIgnoringCase a.name.toList wanted

/-- The family with a canonical name, and the unknown one for any other text. -/
def ofName (text : String) : Architecture := (ofName? text).getD unknown

/-- What is said of a text that is not a canonical name. -/
def unknownNameMessage (text : String) : String := "unknown architecture tag: " ++ text

end Architecture

end LoraSchedule
