import LoraSchedule.Block.Role
import LoraSchedule.Number.Decimal

/-!
# Presets

A preset gives each role a factor.  Schedules refer to presets by id; an id without a preset is kept
and has no effect.
-/

namespace LoraSchedule

open LoraSchedule.Number (Binary Double)

/-- A preset of the catalog. -/
structure Preset where
  id : String
  label : String
  description : String
  /-- The factor of each role in hundredths. -/
  hundredths : Role → Nat

namespace Preset

/-- The id for weights set by hand, which names no preset. -/
def customId : String := "CUSTOM"

/-- Factors for the first four roles; the text encoder and other blocks are left alone. -/
def factors (pose identity style details : Nat) : Role → Nat
  | .pose => pose
  | .identity => identity
  | .style => style
  | .details => details
  | .clip | .other => 100

def catalog : List Preset := [
    ⟨"LINEAR", "Linear (Default)", "No modification. All blocks set to 1.0.",
      factors 100 100 100 100⟩,
    ⟨"STYLE_FOCUSED", "Style Focused",
      "Reduces structural influence to let the LoRA's style bleed through.",
      factors 60 100 140 160⟩,
    ⟨"BALANCED", "Balanced Distribution",
      "Slight boost to style and details while keeping structure firm.",
      factors 90 110 110 120⟩,
    ⟨"HEAVY_STYLE", "Heavy Style Transfer", "Aggressive style transfer. May break anatomy.",
      factors 40 120 160 180⟩,
    ⟨"REALISM", "Realism Tweak", "Subtle boost to texture and lighting blocks.",
      factors 100 100 105 110⟩
  ]

/-- The preset with an id. -/
def ofId? (id : String) : Option Preset := catalog.find? fun preset => preset.id = id

/-- The factor of a role. -/
def weight (preset : Preset) (role : Role) : Double :=
  Binary.ofDecimal ⟨false, preset.hundredths role, -2⟩

end Preset

end LoraSchedule
