/-!
# Roles and groups of blocks

Each block has a role, which presets are written in terms of, and a group, under which it is shown.
-/

namespace LoraSchedule

/-- What a block of any family contributes to the image. -/
inductive Role
  /-- Composition and structure. -/
  | pose
  /-- Likeness of the subject. -/
  | identity
  /-- Lighting and artistic style. -/
  | style
  /-- Fine texture. -/
  | details
  /-- The text encoder. -/
  | clip
  /-- Embeddings and whatever is not classified. -/
  | other
deriving DecidableEq, Inhabited

namespace Role

/-- All roles, in their order. -/
def all : List Role := [pose, identity, style, details, clip, other]

def name : Role → String
  | pose => "POSE"
  | identity => "IDENTITY"
  | style => "STYLE"
  | details => "DETAILS"
  | clip => "CLIP"
  | other => "OTHER"

def ofName? (text : String) : Option Role := all.find? fun role => role.name = text

end Role

/-- Where blocks are shown together. -/
inductive BlockGroup
  | clip
  | input
  | middle
  | output
  | layers
  | aux
deriving DecidableEq, Inhabited

namespace BlockGroup

/-- All groups, in the order in which their patterns are tried. -/
def all : List BlockGroup := [clip, input, middle, output, layers, aux]

def name : BlockGroup → String
  | clip => "clip"
  | input => "input"
  | middle => "middle"
  | output => "output"
  | layers => "layers"
  | aux => "aux"

def ofName? (text : String) : Option BlockGroup := all.find? fun group => group.name = text

/-- The heading of a group. -/
def label : BlockGroup → String
  | clip => "Text Encoder / CLIP"
  | input => "Structure / Input"
  | middle => "Concept / Middle"
  | output => "Style / Output"
  | layers => "Transformer Layers"
  | aux => "Embeddings / Aux"

/-- The switches shown with a group. -/
def toggles : BlockGroup → List String
  | clip => ["split_mode"]
  | _ => []

end BlockGroup

end LoraSchedule
