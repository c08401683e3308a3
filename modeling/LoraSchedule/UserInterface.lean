import LoraSchedule.Block.Basic
import LoraSchedule.Json.Value
import LoraSchedule.Preset
import LoraSchedule.Statistics.Balance

/-!
# The document for user interfaces

A block editor takes its headings, presets and explanations from this document.
-/

namespace LoraSchedule.UserInterface

open LoraSchedule.Json (Value)

def version : String := "1.2.2"

/-- How the names of families start for which presets are offered. -/
def presetFamilies : List String := ["SDXL", "SD1", "SD2", "1.5", "FLUX", "SD3"]

def texts (items : List String) : Value := .array (items.map Value.string)

/-- A group of blocks; switches are listed only if there are any. -/
def groupDocument (group : BlockGroup) : Value :=
  .object ([
    ("id", .string group.name),
    ("label", .string group.label),
    ("patterns", texts group.patterns)] ++
    if group.toggles = [] then [] else [("toggles", texts group.toggles)])

/-- A preset with its weights by the names of roles. -/
def presetDocument (preset : Preset) : Value :=
  .object [
    ("label", .string preset.label),
    ("desc", .string preset.description),
    ("weights", .ofDict (Dict.ofList (Role.all.map fun role =>
      (role.name, Value.ofDouble (preset.weight role)))))]

/-- What the blocks of each role are in a layout. -/
def rolesDocument (pose identity style details : String) : Value :=
  .object [
    ("pose", .string pose),
    ("identity", .string identity),
    ("style", .string style),
    ("details", .string details)]

def layoutDocuments : Dict Value := Dict.ofList [
    ("FLUX", rolesDocument
      "Double Blocks (0-10)\nStructure & Composition"
      "Double Blocks (11+)\nSubject Likeness"
      "Single Blocks (0-20)\nArtistic Flow"
      "Single Blocks (21+)\nFine Texture"),
    ("SD15", rolesDocument
      "Input (0-8)\nCoarse Structure"
      "Input(9+) / Mid / Output(0-2)\nMain Subject"
      "Output (3-8)\nLighting & Style"
      "Output (9+)\nPixel Details"),
    ("SD3", rolesDocument
      "Joint Blocks (Early)\nSpatial Structure"
      "Joint Blocks (Mid)\nSubject Features"
      "Joint Blocks (Late)\nArtistic Rendering"
      "Joint Blocks (Final)\nOutput Refinement"),
    ("LINEAR", rolesDocument
      "Layers (0-30%)\nEarly Processing"
      "Layers (30-60%)\nMiddle Processing"
      "Layers (60-80%)\nLate Processing"
      "Layers (80-100%)\nFinal Refinement"),
    ("SDXL", rolesDocument
      "Input Blocks\nComposition & Structure"
      "Middle & Output(0-2)\nEntity & Concept"
      "Output Blocks (3-5)\nLighting & Art Style"
      "Output Blocks (6-8)\nTexture & Details")
  ]

/-- The whole document. -/
def document : Value :=
  .object [
    ("config_version", .string version),
    ("BLOCK_ORDER", texts Statistics.blockOrder),
    ("BLOCK_GROUPS", .array (BlockGroup.all.map groupDocument)),
    ("PRESET_COMPATIBLE_ARCHS", texts presetFamilies),
    ("PRESET_STRATEGIES", .ofDict (Dict.ofList (Preset.catalog.map fun preset =>
      (preset.id, presetDocument preset)))),
    ("ARCH_BLOCK_MAPPINGS", .ofDict layoutDocuments)]

end LoraSchedule.UserInterface
