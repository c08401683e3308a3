import LoraSchedule.Curve
import LoraSchedule.Files.Path
import LoraSchedule.Plan
import LoraSchedule.Schedule.Line
import LoraSchedule.Weighting

/-!
# Resolving schedules

A schedule is given as entries, as text, or as a plan made before.  Resolving combines what is given
into one plan, a text of the entries that were applied, and the words that trigger their LoRAs.

What is known about files comes from a `Source`, whose answers may depend on a state and change it.
-/

namespace LoraSchedule

open LoraSchedule.Number (Binary Double)

/-! ## Modes -/

/-- How the parts of a schedule are combined. -/
inductive ResolutionMode
  /-- The entries are applied, after the prior plan if there is one. -/
  | standard
  /-- The entries are applied, and the text is kept in front. -/
  | override
  /-- The entries are read from the text. -/
  | externalText
  /-- The prior plan is all there is. -/
  | externalPrior
  /-- The prior plan is kept, and the text in front. -/
  | bridge
deriving DecidableEq

namespace ResolutionMode

/-- The mode, by which parts are given. -/
def select : (hasEntries hasText hasPrior : Bool) → ResolutionMode
  | false, true, false => externalText
  | false, false, true => externalPrior
  | false, true, true => bridge
  | true, true, true => override
  | _, _, _ => standard

/-- Whether the given text starts the resulting text. -/
def keepsText : ResolutionMode → Bool
  | override | bridge => true
  | _ => false

def name : ResolutionMode → String
  | standard => "STANDARD"
  | override => "OVERRIDE"
  | externalText => "EXTERNAL_TEXT"
  | externalPrior => "EXTERNAL_PRIOR"
  | bridge => "BRIDGE"

end ResolutionMode

/-! ## Sources -/

/-- Where resolving finds out about files. -/
structure Source (σ : Type) where
  /-- The file that a name stands for. -/
  resolve? : String → Option Path
  /-- The tensors of a file, if it can be loaded. -/
  load? : Path → Option TensorDict
  /-- The words that trigger a file. -/
  words : Path → List String
  architecture : Path → StateM σ Architecture
  statistics? : Path → Architecture → StateM σ (Option (Statistics Double))

/-! ## Entries -/

/-- An entry that was applied: its hook, and the entry as the resulting text shows it. -/
structure Applied where
  hook : Hook
  shown : Entry

/-- The name under which an entry is shown: the stem of its file name. -/
def displayName (name : String) : String :=
  match (name : Path).fileStem? with
  | some stem => String.ofList (Utf8.decode stem)
  | none => name

/-- The weights of an entry's own, over those of its preset. -/
def entryWeights (e : Entry) (architecture : Architecture) (statistics : Option (Statistics Double)) :
    Dict Double :=
  match e.preset, statistics with
  | some preset, some s =>
    (presetWeights architecture preset s.blockIds s.blocks).union e.vectors
  | _, _ => e.vectors

/-- The hook of an entry and how it is shown. -/
def applied (e : Entry) (architecture : Architecture) (weights : Dict Double)
    (tensors : TensorDict) : Applied :=
  let points := padPoints (sortPoints e.points)
  let weighted := if weights.isEmpty then tensors else applyWeights architecture weights tensors
  { hook := ⟨e.name, weighted, e.modelStrength, e.clipStrength, points⟩
    shown := { e with
      name := displayName e.name
      points := points
      architecture := architecture
      vectors := weights } }

namespace Source

variable {σ : Type} (source : Source σ)

/-- The statistics that an entry needs: only a preset needs any. -/
def statisticsFor (e : Entry) (path : Path) (architecture : Architecture) :
    StateM σ (Option (Statistics Double)) :=
  if (e.preset.filter (· ≠ "")).isSome then source.statistics? path architecture else pure none

/-- Applies an entry whose file has been found, unless the file has no tensors to apply or the
entry no effect. -/
def applyAt (e : Entry) (path : Path) : StateM σ (Option Applied) :=
  match (source.load? path).filter fun tensors => !tensors.isEmpty with
  | none => pure none
  | some tensors => do
    -- The file is analysed before the strengths are looked at: the cache keeps what was found.
    let architecture ←
      if e.architecture = .unknown then source.architecture path else pure e.architecture
    let statistics ← source.statisticsFor e path architecture
    if e.isSilent then return none
    return some (applied e architecture (entryWeights e architecture statistics) tensors)

/-- Applies an entry if its file is found. -/
def apply (e : Entry) : StateM σ (Option Applied) :=
  match source.resolve? e.name with
  | none => pure none
  | some path => source.applyAt e path

/-- Applies entries in their order. -/
def applyAll : List Entry → StateM σ (List Applied)
  | [] => pure []
  | e :: rest => do
    let first ← source.apply e
    let others ← applyAll rest
    return first.toList ++ others

/-- The words that trigger the files of entries, where these are found. -/
def wordsOf (entries : List Entry) : List String :=
  entries.flatMap fun e => ((source.resolve? e.name).map source.words).getD []

end Source

/-! ## Schedules -/

/-- What resolving a schedule gives. -/
structure Resolution where
  mode : ResolutionMode
  plan : Plan
  text : String
  /-- The trigger words in ascending order, each once. -/
  words : List String

/-- The trigger words in a row. -/
def Resolution.wordText (r : Resolution) : String :=
  String.ofList (Text.joinWith [',', ' '] (r.words.map String.toList))

/-- A text that is more than blanks. -/
def nonBlank? (text : Option String) : Option String :=
  text.filter fun text => Text.trim text.toList ≠ []

/-- The parts of a text that are not empty, each starting a line. -/
def joinParts (parts : List (List Char)) : List Char :=
  Text.joinWith ['\n'] (parts.filter (· ≠ []))

/-- Texts in ascending order, each once. -/
def ascending (texts : List String) : List String := (Dict.ofList (texts.map (·, ()))).keys

/-- The mode of a schedule. -/
def modeOf (entries : List Entry) (text : Option String) (prior : Option Plan) : ResolutionMode :=
  .select (entries.any Entry.enabled) (nonBlank? text).isSome prior.isSome

/-- The entries that may be applied in a mode. -/
def candidateEntries (mode : ResolutionMode) (entries : List Entry) (text : Option String) :
    List Entry :=
  let listed :=
    match mode with
    | .standard | .override => entries
    | .externalText => Schedule.parse ((nonBlank? text).getD "")
    | .externalPrior | .bridge => []
  listed.filter Entry.enabled

/-- The text that is kept in a mode. -/
def keptText (mode : ResolutionMode) (text : Option String) : String :=
  if mode.keepsText then (nonBlank? text).getD "" else ""

/-- Combines entries, a text and a prior plan. -/
def Source.resolve {σ : Type} (source : Source σ) (entries : List Entry) (text : Option String)
    (prior : Option Plan) : StateM σ Resolution := do
  let mode := modeOf entries text prior
  let candidates := candidateEntries mode entries text
  let kept := keptText mode text
  let applied ← source.applyAll candidates
  let lines := Text.joinWith ['\n'] (applied.map fun a => a.shown.renderChars)
  return {
    mode
    plan := .compose prior (applied.map Applied.hook)
    text := String.ofList (joinParts [kept.toList, lines])
    words := ascending (source.wordsOf (Schedule.parse kept) ++ source.wordsOf candidates) }

end LoraSchedule
