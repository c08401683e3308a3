import LoraSchedule.Architecture.Basic
import LoraSchedule.Text.Lowercase

/-!
# Families named in free text

Model names, tags and version strings name a family by a keyword somewhere in them.
-/

namespace LoraSchedule.Architecture

/-- The keywords, the stronger before the weaker. -/
def keywords : List (String × Architecture) := [
    ("flux.1", flux1),
    ("flux.2", flux2),
    ("flux", flux1),
    ("zimageturbo", zImageTurbo),
    ("z_image_turbo", zImageTurbo),
    ("lumina", lumina),
    ("hidream", hidream),
    ("chroma", chroma),
    ("qwen", qwen),
    ("aura", aura),
    ("hyvid", hunyuanVideo),
    ("hunyuan", hunyuanVideo),
    ("pony", pony),
    ("illustrious", illustrious),
    ("noob", noobai),
    ("realism", realism),
    ("realvis", realism),
    ("xl", sdxl),
    ("v1", sd15),
    ("1.5", sd15),
    ("sd15", sd15),
    ("v2", sd21),
    ("2.1", sd21),
    ("sd3", sd3)
  ]

/-- The family of the strongest keyword that a text contains in letters of either case. -/
def ofKeyword? (text : String) : Option Architecture :=
  let lowered := Text.lowercase text.toList
  (keywords.find? fun keyword => Text.containsText keyword.1.toList lowered).map Prod.snd

end LoraSchedule.Architecture
