import LoraSchedule.Architecture.Keyword
import LoraSchedule.Files.Tree
import LoraSchedule.Json.Printer
import LoraSchedule.Json.Record

/-!
# Sidecars

A LoRA file may have JSON files of the same stem beside it, with facts that providers noted: the
base model, tags, and the words that trigger the LoRA.
-/

namespace LoraSchedule

open LoraSchedule.Json (Value Written)

/-- The section of a sidecar that a provider wrote. -/
structure ProviderNotes where
  tags : Option Value
  baseModel : Option Value
  trainedWords : Option Value

/-- A sidecar document.  Fields that are `null` count as not written. -/
structure Sidecar where
  trainedWords : Option Value
  baseModel : Option Value
  baseModelSnake : Option Value
  sdVersion : Option Value
  modelSpecArchitecture : Option Value
  provider : Option ProviderNotes

/-! ## Reading -/

/-- A field of any kind inside `depth` containers. -/
def Sidecar.field? (depth : Nat) : Option Written → Option (Option Value) :=
  Written.orDefault none (Written.optional? (Value.ofNested? depth))

def ProviderNotes.ofWritten? (written : Written) : Option ProviderNotes := do
  let [tags, baseModel, words] ← written.record? ["tags", "baseModel", "trainedWords"] | none
  return ⟨← Sidecar.field? 2 tags, ← Sidecar.field? 2 baseModel, ← Sidecar.field? 2 words⟩

namespace Sidecar

def ofWritten? (written : Written) : Option Sidecar := do
  let [words, baseModel, snake, version, spec, provider] ← written.record?
    ["trainedWords", "baseModel", "base_model", "sd_version", "modelspec.architecture",
      "civitai"] | none
  return ⟨← field? 1 words, ← field? 1 baseModel, ← field? 1 snake, ← field? 1 version,
    ← field? 1 spec,
    ← Written.orDefault none (Written.optional? ProviderNotes.ofWritten?) provider⟩

def ofText? (text : String) : Option Sidecar := Written.ofText? text.toList >>= ofWritten?

/-! ## What a sidecar says -/

/-- A text or a number as text; other values, and the empty text, say nothing. -/
def scalarText? : Value → Option String
  | .string s => if s = "" then none else some s
  | .number n => some (String.ofList n.render)
  | _ => none

/-- Whether a value is more than nothing: numbers always are. -/
def isTruthy : Value → Bool
  | .null => false
  | .bool b => b
  | .string s => s ≠ ""
  | .array items => !items.isEmpty
  | .object fields => !fields.isEmpty
  | .number _ => true

/-- The fields that name a single base model, in the order in which they are asked. -/
def baseModelFields (s : Sidecar) : List Value :=
  [s.baseModel, s.baseModelSnake, s.sdVersion, s.modelSpecArchitecture,
    s.provider >>= ProviderNotes.baseModel].filterMap id

/-- The families named by a list of values. -/
def families (values : List Value) : List Architecture :=
  values.filterMap fun value => scalarText? value >>= Architecture.ofKeyword?

/-- The tags of the provider, if they are a list. -/
def tags (s : Sidecar) : List Value :=
  (s.provider >>= ProviderNotes.tags >>= Value.array?).getD []

/-- The family that a sidecar names: a specific one among the tags, else a specific one among the
fields, else SDXL if a field names that. -/
def architecture? (s : Sidecar) : Option Architecture :=
  match (families s.tags).find? fun a => !a.isGeneric with
  | some tagged => some tagged
  | none =>
    let named := families s.baseModelFields
    match named.find? fun a => !a.isGeneric with
    | some specific => some specific
    | none => named.getLast?

/-- The words that trigger the LoRA: those of the sidecar itself, or if it has nothing there, those
of the provider. -/
def words (s : Sidecar) : List String :=
  let value := (s.trainedWords.filter isTruthy).or (s.provider >>= ProviderNotes.trainedWords)
  ((value >>= Value.array?).getD []).filterMap scalarText?

/-! ## Files -/

/-- Where the sidecars of a file are looked for, in this order. -/
def paths (lora : Path) : List Path :=
  let stem := (lora.fileStem?.map Utf8.decode).getD []
  [lora.withFileName (Utf8.encode (stem ++ ".metadata.json".toList)),
    lora.withFileName (Utf8.encode (stem ++ ".json".toList))]

inductive ReadError
  | unreadable
  | malformed
deriving DecidableEq

def read (t : FileTree) (p : Path) : Except ReadError Sidecar :=
  match t.readText? p with
  | none => .error .unreadable
  | some text =>
    match ofText? text with
    | none => .error .malformed
    | some sidecar => .ok sidecar

/-- The sidecars of a file that can be read. -/
def ofFile (t : FileTree) (lora : Path) : List Sidecar :=
  (paths lora).filterMap fun p => (read t p).toOption

/-- The family named by the first sidecar of a file that names one. -/
def architectureOfFile? (t : FileTree) (lora : Path) : Option Architecture :=
  (ofFile t lora).findSome? architecture?

/-- The words of all sidecars of a file. -/
def wordsOfFile (t : FileTree) (lora : Path) : List String := (ofFile t lora).flatMap words

end Sidecar

end LoraSchedule
