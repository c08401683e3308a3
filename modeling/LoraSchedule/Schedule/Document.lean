import LoraSchedule.Json.Printer
import LoraSchedule.Json.Record
import LoraSchedule.Schedule.Entry

/-!
# Schedules as JSON

The record form of entries, and the documents that hold them: a list of entries, or profiles of
which one is active.
-/

namespace LoraSchedule

open LoraSchedule.Json (Value Written)
open LoraSchedule.Number (Binary Double)

/-! ## Records -/

def KeyPoint.ofWritten? (written : Written) : Option KeyPoint := do
  let [x, y] ← written.record? ["x", "y"] | none
  return ⟨← Written.required Written.double? x, ← Written.required Written.double? y⟩

def KeyPoint.toJson (p : KeyPoint) : Value :=
  .object [("x", .ofDouble p.x), ("y", .ofDouble p.y)]

namespace Entry

/-- The fields of an entry, in their order. -/
def fieldNames : List String :=
  ["lora_name", "strength_model", "strength_clip", "points", "enabled", "arch", "vectors", "preset"]

/-- Reads an entry; all fields but the name have defaults. -/
def ofWritten? (written : Written) : Option Entry := do
  let [name, model, clip, points, enabled, architecture, vectors, preset] ←
    written.record? fieldNames | none
  let name ← Written.required Written.string? name
  let standard := Entry.ofName name
  return {
    name
    modelStrength := ← Written.orDefault standard.modelStrength Written.double? model
    clipStrength := ← Written.orDefault standard.clipStrength Written.double? clip
    points := ← Written.orDefault standard.points (Written.list? KeyPoint.ofWritten?) points
    enabled := ← Written.orDefault standard.enabled Written.bool? enabled
    architecture := ← Written.orDefault standard.architecture
      (fun written => written.string?.map Architecture.ofName) architecture
    vectors := ← Written.orDefault standard.vectors (Written.dict? Written.double?) vectors
    preset := ← Written.orDefault standard.preset (Written.optional? Written.string?) preset }

def ofText? (text : String) : Option Entry := Written.ofText? text.toList >>= ofWritten?

/-- The record of an entry; a preset is written only if there is one. -/
def toJson (e : Entry) : Value :=
  .object ([
    ("lora_name", .string e.name),
    ("strength_model", .ofDouble e.modelStrength),
    ("strength_clip", .ofDouble e.clipStrength),
    ("points", .array (e.points.map KeyPoint.toJson)),
    ("enabled", .bool e.enabled),
    ("arch", .string e.architecture.name),
    ("vectors", .ofDict (e.vectors.map fun _ => Value.ofDouble))] ++
    (e.preset.map fun id => ("preset", Value.string id)).toList)

/-- The entries of a list of documents, with their points in order; documents that are no entries
are passed over. -/
def ofDocuments (items : List Value) : List Entry :=
  items.filterMap fun item => (ofWritten? item.toWritten).map sorted

end Entry

/-! ## Schedule documents -/

namespace Schedule

/-- The profile that is active where a document names none. -/
def defaultProfile : String := "Default"

/-- The entries of a profile, which is a list or an object with a list. -/
def profileItems (profile : Value) : List Value :=
  match profile with
  | .array items => items
  | _ => (profile.field? "loras" >>= Value.array?).getD []

/-- The entries that a document selects. -/
def selectedItems (document : Value) : List Value :=
  match document with
  | .array items => items
  | _ =>
    let active := (document.field? "active_profile" >>= Value.string?).getD defaultProfile
    ((document.field? "profiles" >>= (Value.field? · active)).map profileItems).getD []

/-- The enabled entries of a document. -/
def ofDocument (document : Value) : List Entry :=
  (Entry.ofDocuments (selectedItems document)).filter Entry.enabled

/-- The enabled entries of a document text; a text that is no document has none. -/
def ofText (text : String) : List Entry :=
  ((Value.ofText? (Text.trim text.toList)).map ofDocument).getD []

end Schedule

end LoraSchedule
