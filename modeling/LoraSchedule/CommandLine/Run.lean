import LoraSchedule.CommandLine.Arguments
import LoraSchedule.Engine
import LoraSchedule.Statistics.Document
import LoraSchedule.UserInterface

/-!
# Running commands

What a command writes, as a function of the files, the environment and the standard input.
-/

namespace LoraSchedule.CommandLine

open LoraSchedule.Json (Value)
open LoraSchedule.Number (Binary Double)

/-- What a command depends on besides its arguments. -/
structure Environment where
  files : FileTree
  /-- The directory for data of the user. -/
  dataDirectory : Option Path
  standardInput : Bytes

/-- What a command leaves behind: the exit code, and the text it wrote. -/
structure Outcome where
  exitCode : Nat
  output : String
deriving DecidableEq

namespace Outcome

/-- A command that ended well, having written some lines. -/
def success (lines : List String) : Outcome :=
  ⟨0, String.join (lines.map fun line => line ++ "\n")⟩

/-- A command that failed. -/
def failure : Outcome := ⟨1, ""⟩

/-- A command line that was not understood. -/
def usageError : Outcome := ⟨2, ""⟩

end Outcome

def programName : String := "loraplan"

def programVersion : String := "0.1.0"

def usageText : String :=
  "Usage: " ++ programName ++ " [OPTIONS] <detect|stats|parse|resolve|presets> ..."

/-! ## Commands -/

variable (env : Environment) (engine : Engine)

/-- The file that a target stands for: itself, or one that is found by that name. -/
def targetPath? (target : String) : Option Path :=
  if env.files.isFile target then some target else engine.resolvePath? env.files target

def detectLines (target : String) (force lineage : Bool) : List String :=
  match targetPath? env engine target with
  | none =>
    ["LoRA '" ++ target ++ "' not found.", "Use '--root <dir>' to add a search root."]
  | some path =>
    let family :=
      if lineage then engine.lineage env.files path force
      else Engine.architecture env.files path force
    [path.text ++ ": " ++ (family.run .empty).1.name]

/-- The report on one file. -/
def fileReport (architecture : Option Architecture) (path : Path) : StateM Cache Value := do
  let family ←
    match architecture with
    | some family => pure family
    | none => Engine.architecture env.files path false
  let statistics ← engine.statistics? env.files path false family
  let byRole (s : Statistics Double) : Value :=
    .object (s.energyByRole.map fun entry => (entry.1.name, Value.ofDouble entry.2))
  return Value.sortFields (.object [
    ("path", .string path.text),
    ("architecture", .string family.name),
    ("energy_by_tag", (statistics.map byRole).getD .null),
    ("statistics", (statistics.map Statistics.toJson).getD .null)])

/-- The reports on several files. -/
def fileReports (architecture : Option Architecture) : List Path → StateM Cache (List Value)
  | [] => pure []
  | path :: rest => do
    let report ← fileReport env engine architecture path
    return report :: (← fileReports architecture rest)

def statsLines (paths : List Path) (architecture : Option Architecture) : List String :=
  let reports := ((fileReports env engine architecture paths).run .empty).1
  [String.ofList (Value.array reports).render]

def parseLines (text : String) : List String :=
  match Schedule.parse text with
  | [] => ["No schedule entries found."]
  | entries =>
    ["Entries:", String.ofList (Value.array (entries.map Entry.toJson)).render, "", "Canonical:",
      Entry.renderAll entries]

def hookLine (hook : Hook) : String :=
  let plain (x : Double) : String := String.ofList x.toPlain
  "  - " ++ hook.name ++ " (model " ++ plain hook.modelStrength ++ ", clip " ++
    plain hook.clipStrength ++ ", " ++ hook.tensors.size.repr ++ " tensors, " ++
    hook.keyframes.length.repr ++ " keyframes)"

def hookLines (plan : Plan) : List String :=
  if plan.hooks.isEmpty then ["No hooks."]
  else ("Hooks (" ++ plan.hooks.length.repr ++ "):") :: plan.hooks.map hookLine

def cacheLine (cache : Cache) : String :=
  let rate := (cache.hitRate * Binary.ofNat 100).toFixed 0
  "Cache: " ++ cache.size.repr ++ " entries, " ++ cache.hits.repr ++ " hits, " ++
    cache.misses.repr ++ " misses (" ++ String.ofList rate ++ "% hit rate)"

/-- Resolves entries and a text; a prior text is resolved first, and its plan passed in. -/
def resolveLines (entries : List Entry) (text prior : Option String) : List String :=
  let resolveBoth : StateM Cache Resolution := do
    let priorPlan ←
      match prior with
      | some prior => do
        let resolution ← engine.resolve env.files [] (some prior) none
        pure (some resolution.plan)
      | none => pure none
    engine.resolve env.files entries text priorPlan
  let (resolution, cache) := resolveBoth.run .empty
  ["Mode: " ++ resolution.mode.name, ""] ++ hookLines resolution.plan ++
    ["", "Text:", resolution.text, "", "Trigger words: " ++ resolution.wordText, "",
      cacheLine cache]

/-- The entries of a schedule file that may be given. -/
def scheduleEntries? (schedule : Option Path) : Option (List Entry) :=
  match schedule with
  | none => some []
  | some path => Schedule.ofFile? env.files path

/-- The text that a command is to parse: the input itself, or for a hyphen the standard input. -/
def inputText? (input : String) : Option String :=
  if input = "-" then String.fromUTF8? ⟨env.standardInput.toArray⟩ else some input

/-- What a command writes; `none` if it fails. -/
def commandLines? : Command → Option (List String)
  | .detect target force lineage => some (detectLines env engine target force lineage)
  | .stats paths architecture => some (statsLines env engine paths architecture)
  | .parse input => (inputText? env input).map parseLines
  | .resolve schedule text prior =>
    (scheduleEntries? env schedule).map fun entries => resolveLines env engine entries text prior
  | .presets => some [String.ofList UserInterface.document.render]

/-! ## The program -/

/-- The engine of a command line. -/
def engineOf? (invocation : Invocation) : Option Engine :=
  let standard := EngineConfig.standard env.dataDirectory
  let config :=
    match invocation.config with
    | some path => (EngineConfig.read env.files standard path).toOption
    | none => some standard
  config.map fun config => .ofConfig (invocation.roots.foldr (fun root c => c.withRoot root) config)

/-- Runs a command line. -/
def run (arguments : List String) : Outcome :=
  match read arguments with
  | .error .usageError => .usageError
  | .error .showVersion => .success [programName ++ " " ++ programVersion]
  | .error .showHelp => .success [usageText]
  | .ok invocation =>
    match engineOf? env invocation with
    | none => .failure
    | some engine =>
      match commandLines? env engine invocation.command with
      | none => .failure
      | some lines => .success lines

end LoraSchedule.CommandLine
